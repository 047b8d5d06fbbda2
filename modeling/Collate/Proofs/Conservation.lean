import Collate.Proofs.Courses
import Collate.Proofs.Faithful

/-!
# Conservation

No message is lost and none is counted twice, however the calls interleave: what was added under a
key left with the removed groups, in order, or is still stored. And every group that a handling or
an offer removed is the very group that the same call completed or discarded just before, once: the
processor was called with it, or the discard channel with its messages, and came to an answer.

* `Ledger.conservation`: the ledger of a depot adds up.
* `Frame.Tells.settle`: a call has run a course so far, or is dealing with a group that is stored.
* `Machine.all_accounted_for`: all of this, after every lawful run from a fresh machine.
-/

namespace Collate

variable {σ : Type}

/-- A call that is dealing with a group: it holds the key, that very group is stored, and what is
left to do is the rest of the dealing and the removal. -/
def Underway (s : Machine σ) (p : Place) (c : List Doing) : Prop :=
  ∃ f h g d lead part rest, s.frameAt p = some f
    ∧ (lead = [] ∨ ∃ m t, lead = [.named h m g.key, .added h d g.key m t])
    ∧ c = lead ++ part ∧ part ≠ [] ∧ Dealing h g (part ++ rest)
    ∧ f.holds s.hub = some (d, g.key) ∧ (s.hub.depot d).store.find? g.key = some g

theorem Hub.member?_of_home? {hub : Hub σ} {h : HandlerId} {d : DepotId}
    (hh : hub.home? h = some d) : ∃ m, hub.member? h = some m ∧ m.handler.depot = d := by
  obtain ⟨handler, hhandler, rfl⟩ := Option.map_eq_some_iff.1 hh
  obtain ⟨m, hm, rfl⟩ := Option.map_eq_some_iff.1 hhandler
  exact ⟨m, hm, rfl⟩

theorem Frame.holds_handling {hub : Hub σ} {h : HandlerId} {p : Handling σ} {d : DepotId}
    {key : Key} (hh : hub.home? h = some d) (hp : p.holds = some key) :
    (Frame.handling h p).holds hub = some (d, key) := by
  obtain ⟨m, hm, rfl⟩ := Hub.member?_of_home? hh
  simp [holds, hm, hp]

theorem Frame.holds_offer {hub : Hub σ} {h : HandlerId} {stale : Group} {p : Offer σ}
    {d : DepotId} (hh : hub.home? h = some d) (hp : p.isHolding = true) :
    (Frame.offer h stale p).holds hub = some (d, stale.key) := by
  obtain ⟨m, hm, rfl⟩ := Hub.member?_of_home? hh
  simp [holds, hm, hp]

theorem Frame.Right.find? {hub : Hub σ} {f : Frame σ} {d : DepotId} {key : Key} {g : Group}
    (hr : f.Right hub) (hh : f.holds hub = some (d, key)) (hg : f.sight = .seen g) :
    (hub.depot d).store.find? key = some g := by
  have hfits := hr.fits d key _ (f.grip_eq_some_of_holds hh)
  rw [hg] at hfits
  exact hfits

/-- What a call did so far is a course, or the call is dealing with a group. -/
theorem Frame.Tells.settle {s : Machine σ} {p : Place} {f : Frame σ} {c : List Doing}
    (ho : s.Orderly) (hp : s.frameAt p = some f) (hr : f.Right s.hub) (ht : f.Tells s.hub c) :
    Course c ∨ Underway s p c := by
  have hf := ho.frames p f hp
  cases f with
  | handling h at_ =>
    -- a completion is under way until the group is removed
    have hcompleted : ∀ key g d m t called, g.key = key → s.hub.home? h = some d →
        at_.holds = some key → at_.sight = .seen g →
        c = [.named h m key, .added h d key m t, .completed h g called] → Underway s p c := by
      rintro _ g d m t called rfl hd hholds hsight rfl
      have hheld := Frame.holds_handling hd hholds
      exact ⟨_, h, g, d, [.named h m g.key, .added h d g.key m t], [.completed h g called], [], hp,
        .inr ⟨m, t, rfl⟩, rfl, by simp, .completed called, hheld, hr.find? hheld hsight⟩
    cases at_
    case arriving =>
      cases ht
      exact .inl .bare
    case locking =>
      cases ht
      exact .inl (.named h _ _)
    case adding =>
      cases ht
      exact .inl (.named h _ _)
    case reviewing =>
      obtain ⟨m, rfl⟩ := ht
      exact .inl (.named h m _)
    case deciding =>
      obtain ⟨d, m, t, -, rfl⟩ := ht
      exact .inl (.added h d _ m t)
    case processing key g work =>
      obtain ⟨hk, d, m, t, called, hd, hc⟩ := ht
      exact .inr (hcompleted key g d m t called hk hd rfl rfl hc)
    case removing key g result =>
      obtain ⟨hk, d, m, t, called, hd, hc⟩ := ht
      exact .inr (hcompleted key g d m t called hk hd rfl rfl hc)
    all_goals exact .inl ht
  | offer h stale at_ =>
    have hdealt : ∀ g rest, (s.hub.handler? h).isSome → g.key = stale.key →
        at_.isHolding = true → at_.sight = .seen g → c ≠ [] → Dealing h g (c ++ rest) →
        Underway s p c := by
      intro g rest hsome hk hholding hsight hne hdealing
      obtain ⟨handler, hh⟩ := Option.isSome_iff_exists.1 hsome
      have hheld : (Frame.offer h stale at_).holds s.hub = some (handler.depot, stale.key) :=
        Frame.holds_offer (Hub.home?_of_handler? hh) hholding
      refine ⟨_, h, g, handler.depot, [], c, rest, hp, .inl rfl, rfl, hne, hdealing, ?_, ?_⟩
      · rw [hk]
        exact hheld
      · rw [hk]
        exact hr.find? hheld hsight
    cases at_
    case meeting =>
      cases ht
      exact .inl .bare
    case seizing =>
      cases ht
      exact .inl .bare
    case rereading =>
      cases ht
      exact .inl .bare
    case discarding g left =>
      obtain ⟨hk, -, gone, hgone, rfl⟩ := ht
      refine .inr (hdealt g (left.map .sent) hf hk rfl rfl (by simp) ?_)
      rw [List.cons_append, ← List.map_append, ← hgone]
      exact .discarded
    case sending g m left work =>
      obtain ⟨hk, -, gone, hgone, rfl⟩ := ht
      refine .inr (hdealt g (left.map .sent) hf.1 hk rfl rfl (by simp) ?_)
      rw [List.cons_append, ← List.map_append, ← hgone]
      exact .discarded
    case completing g work =>
      obtain ⟨hk, called, rfl⟩ := ht
      exact .inr (hdealt g [] hf.1 hk rfl rfl (by simp) (.completed called))
    case removing g =>
      obtain ⟨hk, hdealing⟩ := ht
      refine .inr (hdealt g [] hf hk rfl rfl ?_ (by simpa using hdealing))
      rintro rfl
      cases hdealing
    all_goals exact .inl ht
  | pass d timeout at_ =>
    cases at_
    case selecting =>
      cases ht
      exact .inl .bare
    case failing => exact .inl ht
    all_goals
      obtain ⟨t, sweeps, rfl, hsweeps⟩ := ht
      exact .inl (.passed hsweeps)
  | drop h at_ =>
    cases ht
    exact .inl .bare

theorem mem_calls {p : Place} {x : Doing} {notes : List Note} (h : .did p x ∈ notes) :
    ∃ c ∈ calls p notes, x ∈ c := by
  induction notes using List.reverseRecOn with
  | nil => cases h
  | append_singleton notes note ih =>
    rw [calls_snoc]
    rcases List.mem_append.1 h with h | h
    · obtain ⟨c, hc, hx⟩ := ih h
      cases note with
      | came q =>
        simp only [Note.hear]
        split_ifs
        · exact ⟨c, List.mem_cons_of_mem _ hc, hx⟩
        · exact ⟨c, hc, hx⟩
      | did q y =>
        simp only [Note.hear]
        split_ifs
        · rcases hcalls : calls p notes with _ | ⟨newest, older⟩ <;> rw [hcalls] at hc
          · cases hc
          · rcases List.mem_cons.1 hc with rfl | hc
            · exact ⟨c ++ [y], List.mem_cons_self, List.mem_append_left _ hx⟩
            · exact ⟨c, List.mem_cons_of_mem _ hc, hx⟩
        · exact ⟨c, hc, hx⟩
    · cases List.mem_singleton.1 h
      simp only [Note.hear, if_true]
      rcases calls p notes with _ | ⟨newest, older⟩
      · exact ⟨[x], List.mem_cons_self, List.mem_singleton_self x⟩
      · exact ⟨newest ++ [x], List.mem_cons_self, by simp⟩

namespace Machine

theorem settled_after {outside : σ} {idOf : Nat → MessageId} {moves : List (Move σ)}
    (hl : (initial outside idOf).Lawful moves) {p : Place} {c : List Doing}
    (hc : c ∈ calls p ((initial outside idOf).history moves)) :
    Course c ∨ Underway ((initial outside idOf).after moves) p c := by
  have ho : (initial outside idOf).Orderly := orderly_initial outside idOf
  have htold := told_after ho (sound_initial outside idOf) (fun p => rfl) moves hl p
  rcases hf : ((initial outside idOf).after moves).frameAt p with _ | f
  · rw [hf] at htold
    exact .inl (htold c hc)
  · rw [hf] at htold
    obtain ⟨newest, older, hcalls, ht, holder⟩ := htold.newest
    have hsound := fun d => sound_after ho d (sound_initial outside idOf d) moves hl
    rw [hcalls] at hc
    rcases List.mem_cons.1 hc with rfl | hc
    · exact ht.settle (orderly_after ho moves hl) hf (Sound.right hsound hf)
    · exact .inl (holder c hc)

/-- After every lawful run, whatever was added to a store left it with a removed group or is still
in it, in the same order, and each call that removed a group had dealt with just that group. The
books are faithful: a group that is noted to be completed is what the processor of the handler was
called with, a message that is noted to be sent is what the discard channel was called with, these
scripts were carried out, and nothing else was processed or sent. -/
theorem all_accounted_for (outside : σ) (idOf : Nat → MessageId) (moves : List (Move σ))
    (hl : (initial outside idOf).Lawful moves) :
    let s := (initial outside idOf).after moves
    let notes := (initial outside idOf).history moves
    (∀ d key, (ledger d notes).added key = ((ledger d notes).taken key).flatten
        ++ ((s.hub.depot d).store.find? key).elim [] Group.messages)
      ∧ (∀ p x, .did p x ∈ notes → ∃ c ∈ calls p notes, x ∈ c)
      ∧ (∀ p, ∀ c ∈ calls p notes, Course c ∨ Underway s p c)
      ∧ (initial outside idOf).Faithful moves := by
  intro s notes
  refine ⟨fun d key => ?_, fun p x hx => mem_calls hx, fun p c hc => settled_after hl hc,
    faithful (orderly_initial outside idOf) hl⟩
  have hkept := kept_after (orderly_initial outside idOf) (bare_initial outside idOf d) moves hl
  rw [Ledger.conservation hkept.fair key, ← hkept.stored key]
  rfl

end Machine

/-! ## Two messages of one key at once -/

/-- A handler without an output, for which two messages of any kind make a group. -/
def pairing : Handler Unit :=
  { Handler.standard 0 fun _ _ => .done (.ok ()) with
    correlation := fun _ => .returned (some ⟨"pair"⟩)
    release := fun g => .returned (2 ≤ g.size) }

theorem discreet_pairing : pairing.Discreet where
  process g := .done _
  discard c hc := by cases hc

/-- A channel that takes everything. -/
def Channel.sink : Channel σ := ⟨fun _ => .done (.ok ())⟩

/-- A pairing handler with an output, whose processor writes down what it is called with. -/
def recording : Handler (List (List Message)) :=
  { Handler.standard 0 fun g _ => .act (· ++ [g.messages]) fun _ => .done (.ok ()) with
    correlation := fun _ => .returned (some ⟨"pair"⟩)
    release := fun g => .returned (2 ≤ g.size)
    output := some .sink }

theorem discreet_recording : recording.Discreet where
  process g := .act fun _ => .done _
  discard c hc := by cases hc

def plain (name : String) : Message := ⟨⟨name⟩, ⟨.null, none, 0, 0, .empty⟩⟩

def pairGroup : Group := ⟨⟨"pair"⟩, [plain "first", plain "second"], 0⟩

/-- Two threads take turns with the two messages of a pair until both are over. -/
def pairTurns : List (Event σ) :=
  [.start (.handle 0 (plain "first")), .start (.handle 0 (plain "second"))]
    ++ [0, 1, 0, 1, 0, 0, 0, 0, 1, 1, 1, 1, 1, 1, 1, 1, 1].map Event.step

def pairRun : List (Move (List (List Message))) :=
  .openDepot none :: .event (.build recording) :: pairTurns.map .event

theorem lawful_pairRun : (Machine.initial [] fun _ => ⟨""⟩).Lawful pairRun := by
  refine ⟨trivial, ⟨discreet_recording, Nat.zero_lt_one⟩, Machine.lawful_events _ _ ?_⟩
  intro e he handler
  rcases List.mem_append.1 he with he | he
  · simp only [List.mem_cons, List.not_mem_nil, or_false] at he
    rcases he with rfl | rfl <;> simp
  · obtain ⟨i, -, rfl⟩ := List.mem_map.1 he
    simp

/-- The pair leaves the store as one group, in the order in which its messages came in, and before
that the processor is called with it, and writes it down. -/
theorem pair_accounted_for :
    (Machine.initial [] fun _ => ⟨""⟩).Lawful pairRun
      ∧ ((ledger 0 ((Machine.initial [] fun _ => ⟨""⟩).history pairRun)).taken ⟨"pair"⟩).flatten
        = [plain "first", plain "second"]
      ∧ .did ⟨1, 0⟩ (.completed 0 pairGroup true)
        ∈ ((Machine.initial [] fun _ => ⟨""⟩).after (pairRun.take 14)).notes (.event (.step 1))
      ∧ (∃ f, ((Machine.initial [] fun _ => ⟨""⟩).after
            (pairRun.take 14 ++ [.event (.step 1)])).frameAt ⟨1, 0⟩ = some f
          ∧ f.WorksOn pairGroup (recording.processor pairGroup .sink))
      ∧ ((Machine.initial [] fun _ => ⟨""⟩).after
          (pairRun.take 14 ++ [.event (.step 1)])).CarriesOut
        (fun work f => f.WorksOn pairGroup work)
        (fun s mv result => ∃ f, (s.move mv).frameAt ⟨1, 0⟩ = some f ∧ f.Removes pairGroup result)
        ⟨1, 0⟩ (recording.processor pairGroup .sink) (pairRun.drop 15)
      ∧ ((Machine.initial [] fun _ => ⟨""⟩).after pairRun).hub.outside
        = [[plain "first", plain "second"]] := by
  obtain ⟨hconserved, -, -, hfaithful⟩ :=
    Machine.all_accounted_for [] (fun _ => ⟨""⟩) pairRun lawful_pairRun
  have hledger := hconserved 0 ⟨"pair"⟩
  have hstored : (((Machine.initial [] fun _ => ⟨""⟩).after pairRun).hub.depot 0).store.find?
      ⟨"pair"⟩ = none := rfl
  rw [hstored, Option.elim_none, List.append_nil] at hledger
  have hnotes : ((Machine.initial [] fun _ => ⟨""⟩).after (pairRun.take 14)).notes
      (.event (.step 1)) = [.did ⟨1, 0⟩ (.completed 0 pairGroup true)] := rfl
  have hnoted : Note.did ⟨1, 0⟩ (.completed 0 pairGroup true)
      ∈ ((Machine.initial [] fun _ => ⟨""⟩).after (pairRun.take 14)).notes (.event (.step 1)) := by
    rw [hnotes]
    exact List.mem_singleton_self _
  have hrun : pairRun = pairRun.take 14 ++ .event (.step 1) :: pairRun.drop 15 := rfl
  obtain ⟨f, hf, handler, hh, -, hworks⟩ := hfaithful.happens _ _ _ hrun _ _ hnoted
  obtain rfl : recording = handler := Option.some.inj hh
  refine ⟨lawful_pairRun, ?_, hnoted, ⟨f, hf, hworks⟩, ?_, rfl⟩
  · rw [← hledger]
    rfl
  · exact hfaithful.processes _ _ (by rw [List.append_assoc]; exact hrun) _ f _ _ hf hworks

end Collate
