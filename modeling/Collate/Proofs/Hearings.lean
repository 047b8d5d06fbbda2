import Collate.Proofs.Apart
import Collate.Proofs.Inquiries

/-!
# What participants say

Whoever takes part in expiry may answer as it likes, and may add to groups and remove them while it
is asked. However the participants answer, as long as each of them does, a pass asks all of them
about all stale groups, in the order of the register. It sees to a group by itself if and only if
nobody answers for it, and it takes those that were gone off the register in the end
(`Machine.pass_hears_everyone`).
-/

namespace Collate

variable {σ : Type}

/-! ## Where a thread leads -/

/-- A thread that works alone comes to a hub and a state of itself of which, and of what was seen,
`Q` holds: whatever time goes by between its steps. -/
inductive Thread.Leads (Q : Hub σ → List (Moment σ) → Thread σ → Prop) :
    Hub σ → List (Moment σ) → Thread σ → Prop
  | last {hub seen t hub' t'} : t.step hub = .ran hub' t' → Q hub' (seen ++ t.moments hub) t' →
      Leads Q hub seen t
  | more {hub seen t hub' t'} : t.step hub = .ran hub' t' →
      (∀ n, Leads Q (hub'.elapse n) (seen ++ t.moments hub) t') → Leads Q hub seen t

namespace Thread.Leads

variable {P Q : Hub σ → List (Moment σ) → Thread σ → Prop} {hub : Hub σ} {seen : List (Moment σ)}
  {t : Thread σ}

theorem trans (h : t.Leads P hub seen)
    (next : ∀ hub' seen' t', P hub' seen' t' → ∀ n, t'.Leads Q (hub'.elapse n) seen') :
    t.Leads Q hub seen := by
  induction h with
  | last hs hp => exact .more hs (next _ _ _ hp)
  | more hs _ ih => exact .more hs ih

/-- Where a thread leads, it gets to in a run of its own. -/
theorem run (h : t.Leads Q hub seen) {s : Machine σ} {i : Nat} (hhub : s.hub = hub)
    (ht : s.threads[i]? = some t) (delays : Nat → Nat) :
    ∃ k hub' t', s.after (.event (.step i) :: rounds i delays k) = ⟨hub', s.threads.set i t'⟩
      ∧ Q hub' (seen ++ s.moments i (.event (.step i) :: rounds i delays k)) t' := by
  have hi : i < s.threads.length := (List.getElem?_eq_some_iff.1 ht).1
  have hmove : ∀ {hub' t'}, t.step s.hub = .ran hub' t' →
      s.move (.event (.step i)) = ⟨hub', s.threads.set i t'⟩ := fun hs => by
    simp [Machine.move, Machine.apply, Machine.progress, ht, hs]
  have hseen : s.seen i (.event (.step i)) = t.moments s.hub := by simp [Machine.seen, ht]
  induction h generalizing s delays with
  | @last hub seen t hub' t' hs hq =>
    subst hhub
    refine ⟨0, hub', t', hmove hs, ?_⟩
    simpa [rounds, Machine.moments, hseen] using hq
  | @more hub seen t hub' t' hs hrest ih =>
    subst hhub
    have ht' : (s.threads.set i t')[i]? = some t' := List.getElem?_set_self hi
    obtain ⟨k, hub'', t'', hafter, hq⟩ :=
      ih (delays 0) (s := ⟨hub'.elapse (delays 0), s.threads.set i t'⟩) rfl ht'
        (fun n => delays (n + 1)) (by simpa using hi)
        (fun hs' => by simp [Machine.move, Machine.apply, Machine.progress, ht', hs'])
        (by simp [Machine.seen, ht'])
    refine ⟨k + 1, hub'', t'', ?_, ?_⟩
    · rw [Machine.after_step_rounds delays k (hmove hs), hafter, List.set_set]
    · rw [Machine.moments, hseen, hmove hs, ← List.append_assoc]
      exact hq

end Thread.Leads

/-- A call above others that comes to an end leads back to the one below it, which hears the
reply. -/
theorem Frame.Comes.leads {Q : Hub σ → List Doing → Reply → Prop} {p : Place}
    {under : Option (Frame σ)} {hub : Hub σ} {done : List Doing} {f : Frame σ}
    (hc : f.Comes Q p under hub done) (g : Frame σ) (below : List (Frame σ)) (reply : Option Reply)
    (seen : List (Moment σ)) :
    Thread.Leads (fun hub' seen' t' => ∃ done' r, Q hub' done' r
      ∧ seen' = seen ++ Thread.hears r (g :: below) ∧ t' = ⟨g.resume r :: below, reply⟩)
      hub seen ⟨f :: g :: below, reply⟩ := by
  induction hc generalizing g below seen with
  | @goes Q p under hub done f hub' f' hs hrest ih =>
    have hstep : Thread.step hub ⟨f :: g :: below, reply⟩
        = .ran hub' ⟨f' :: g :: below, reply⟩ := by
      simp [Thread.step, hs]
    refine .more hstep fun n => ?_
    simpa [Thread.moments, hs] using ih n g below seen
  | @calls Q R p under hub done f hub' f' inner hs hinner hnext ihinner ihnext =>
    have hstep : Thread.step hub ⟨f :: g :: below, reply⟩
        = .ran hub' ⟨inner :: f' :: g :: below, reply⟩ := by
      simp [Thread.step, hs]
    refine .more hstep fun n => ?_
    have hmoments : Thread.moments hub ⟨f :: g :: below, reply⟩ = [] := by
      simp [Thread.moments, hs]
    rw [hmoments, List.append_nil]
    refine (ihinner n f' (g :: below) seen).trans ?_
    rintro hub'' seen' t' ⟨done', r, hr, rfl, rfl⟩ n'
    simpa [Thread.hears] using ihnext hub'' done' r hr n' g below seen
  | @ends Q p under hub done f hub' r hs hq =>
    exact .last (by simp [Thread.step, hs]) ⟨done, r, hq, by simp [Thread.moments, hs], rfl⟩

/-! ## Participants that answer -/

/-- A participant that answers the offer of a group, whatever its answer is, and after which `I`
holds again. -/
def Participant.Answers (I : Hub σ → Prop) (hub : Hub σ) (g : Group) : Participant → Prop
  | .handler h => ∀ p under done, p.depth = 1 → (Frame.offer h g .meeting).Comes
      (fun hub' _ r => I hub' ∧ ∃ outcome, r = .offered (.returned outcome)) p under hub done
  | .hook id => ∀ hook, hub.hooks[id]? = some hook → (hook g).Comes (fun hub' _ => I hub') hub

/-- No key of a depot is held. -/
def Depot.Free (depot : Depot) : Prop := ∀ key e, depot.locks.find? key = some e → e.held = false

/-- A depot of which the key of a group is taken, whoever owns it. -/
def Depot.claim (depot : Depot) (g : Group) : Depot :=
  { depot with
    locks := depot.locks.set g.key ⟨true, (depot.locks.find? g.key).bind LockEntry.owner⟩ }

/-- What a pass leaves of a depot of which no key is held, once it saw to a group by itself. -/
def Depot.sweep (depot : Depot) (g : Group) : Depot :=
  let store := (depot.store.removeUnchanged g).1
  ({ depot.claim g with store := store } : Depot).release g.key (!store.contains g.key)

/-- Terms between a depot and the participants on its register. They hold whenever somebody is
asked, and again after every answer: no key of the depot is held then, and the register is what it
was. Neither the passing of time nor the pass itself breaks them. -/
structure Hub.Terms (I : Hub σ → Prop) (d : DepotId) (register : List Participant) : Prop where
  opened : ∀ hub, I hub → d < hub.depots.length
  free : ∀ hub, I hub → (hub.depot d).Free
  steady : ∀ hub, I hub → (hub.depot d).participants = register
  elapse : ∀ hub n, I hub → I (hub.elapse n)
  sweep : ∀ hub g, I hub → I (hub.setDepot d ((hub.depot d).sweep g))
  answers : ∀ who ∈ register, ∀ hub g, I hub → who.Answers I hub g

/-! ## What is said to one group -/

/-- A participant is asked about a group as it is to be asked, and then it answers. -/
def Hub.hearing (hub : Hub σ) (g : Group) (answer : Participant × ExpiryOutcome) :
    List (Moment σ) :=
  [.asked g answer.1 (answer.1.inquiry hub g), .heard g answer.1 answer.2]

/-- What all participants said to a group, in the order of the register, and what was stored
then. -/
structure Ballot where
  group : Group
  outcomes : List ExpiryOutcome
  stored : Store

namespace Ballot

/-- Somebody is there to answer for the group. -/
def attended (b : Ballot) : Bool := b.outcomes.any (· ≠ .detached)

/-- Whether the group counts as expired: by a participant, or else by the pass, if the key is still
stored with the last modification that was selected. -/
def counts (b : Ballot) : Bool :=
  if b.attended then b.outcomes.any (· = .expired)
  else (b.stored.find? b.group.key).any fun g => g.lastModified = b.group.lastModified

/-- What is stored once the pass saw to the group. -/
def settled (b : Ballot) : Store :=
  if b.counts then (b.stored.remove b.group.key).1 else b.stored

/-- All that is seen as a pass takes its turn at the group. -/
def moments (hub : Hub σ) (among : List Participant) (b : Ballot) : List (Moment σ) :=
  (among.zip b.outcomes).flatMap (hub.hearing b.group)
    ++ .polled b.group b.stored
      :: if b.attended then [] else [.settled b.group b.stored b.settled]

/-- A participant was gone when asked about the group. -/
def Absent (among : List Participant) (b : Ballot) (who : Participant) : Prop :=
  (who, .detached) ∈ among.zip b.outcomes

instance (among : List Participant) (b : Ballot) (who : Participant) :
    Decidable (b.Absent among who) := inferInstanceAs (Decidable (_ ∈ _))

theorem removeUnchanged_of_not_attended {b : Ballot} (h : b.attended = false) :
    b.stored.removeUnchanged b.group = (b.settled, b.counts) := by
  have hcounts : b.counts = b.stored.isUnchanged b.group := by
    simp [counts, h, Store.isUnchanged, beq_eq_decide]
  rw [settled, hcounts, Store.removeUnchanged]
  split_ifs with hsame
  · rw [hsame]
  · rw [Bool.eq_false_iff.2 hsame]

end Ballot

/-- A pass over a depot that took its turn at the groups of some ballots, if that is what was seen
of it, what it replied and which register it left. -/
structure Canvass (hub : Hub σ) (d : DepotId) (stale : List Group) (ballots : List Ballot)
    (seen : List (Moment σ)) (reply : Option Reply) (register : List Participant) : Prop where
  /-- Each group that was stale has its turn, unless expiry is out of service. -/
  groups : (ballots.map Ballot.group).Perm
    (if (hub.depot d).outages.expire = none then stale else [])
  /-- Everybody answers for each of the groups. -/
  outcomes : ∀ b ∈ ballots, b.outcomes.length = (hub.depot d).participants.length
  /-- The participants are asked in the order of the register, one group after another, each hook
  and each handler as it is to be asked, and the pass sees to a group by itself if nobody is
  there. -/
  moments : seen = ballots.flatMap (Ballot.moments hub (hub.depot d).participants)
  reply : reply = some (.passed (.returned ((hub.depot d).outages.expire.elim
    (.ok (ballots.countP Ballot.counts)) fun reason => .error (.synchronisation reason))))
  /-- All registrations of those that were gone for some group are taken off, and no others. -/
  register : register = (hub.depot d).participants.filter
    fun who => ∀ b ∈ ballots, ¬b.Absent (hub.depot d).participants who

theorem KeyLocks.tryAcquire?_of_free {l : KeyLocks} {key : Key}
    (h : ∀ e, l.find? key = some e → e.held = false) :
    l.tryAcquire? key = some (l.set key ⟨true, (l.find? key).bind LockEntry.owner⟩) := by
  unfold tryAcquire?
  rcases he : l.find? key with _ | e
  · rfl
  · simp [h e he]

namespace Pass

variable {t : Tally} {said : Responses}

/-- A tally and what one group was told so far, after more answers. -/
def hearAll (t : Tally) (said : Responses) :
    List (Participant × ExpiryOutcome) → Tally × Responses
  | [] => (t, said)
  | (who, outcome) :: more =>
    hearAll (hear t said who outcome).1 (hear t said who outcome).2 more

theorem hearAll_said (t : Tally) (said : Responses) {among : List Participant}
    {outcomes : List ExpiryOutcome} (hlen : outcomes.length = among.length) :
    (hearAll t said (among.zip outcomes)).2 = ⟨said.attached || outcomes.any (· ≠ .detached),
      said.expired || outcomes.any (· = .expired)⟩ := by
  induction among generalizing t said outcomes with
  | nil => simp [List.length_eq_zero_iff.1 hlen, hearAll]
  | cons who among ih =>
    obtain ⟨outcome, more, rfl⟩ := List.exists_cons_of_length_eq_add_one hlen
    rw [List.zip_cons_cons, hearAll, ih _ _ (Nat.succ.inj hlen)]
    cases outcome <;> simp [hear]

theorem hearAll_tally (t : Tally) (said : Responses)
    (answers : List (Participant × ExpiryOutcome)) :
    ∃ detached, (hearAll t said answers).1 = { t with detached := detached }
      ∧ ∀ who, who ∈ detached ↔ who ∈ t.detached ∨ (who, .detached) ∈ answers := by
  induction answers generalizing t said with
  | nil => exact ⟨t.detached, rfl, by simp⟩
  | cons answer more ih =>
    obtain ⟨who, outcome⟩ := answer
    rw [hearAll]
    obtain ⟨detached, heq, hmem⟩ := ih (hear t said who outcome).1 (hear t said who outcome).2
    have hheard : ∃ now, (hear t said who outcome).1 = { t with detached := now }
        ∧ ∀ other, other ∈ now ↔ other ∈ t.detached ∨ other = who ∧ outcome = .detached := by
      cases outcome
      case detached =>
        by_cases hknown : who ∈ t.detached
        · exact ⟨t.detached, by simp [hear, hknown], by grind⟩
        · exact ⟨t.detached ++ [who], by simp [hear, hknown], by simp⟩
      all_goals exact ⟨t.detached, rfl, by simp⟩
    obtain ⟨now, hnow, hnowmem⟩ := hheard
    refine ⟨detached, ?_, fun other => ?_⟩
    · rw [heq, hnow]
    · rw [hmem, hnow, hnowmem]
      simp [or_assoc, eq_comm]

/-! ## One group -/

/-- A thread that does a pass and nothing else. -/
def alone (d : DepotId) (timeout : Nat) (p : Pass σ) : Thread σ := ⟨[.pass d timeout p], none⟩

section Group

variable {I : Hub σ → Prop} {d : DepotId} {timeout : Nat} {register left : List Participant}
  {start hub hub' : Hub σ} {g : Group} {Q : Hub σ → List (Moment σ) → Thread σ → Prop}
  {seen : List (Moment σ)} {p p' : Pass σ}

theorem leads_seen (hub' : Hub σ) (p' : Pass σ) (now : List (Moment σ))
    (hs : p.step hub d timeout = .goes hub' (.pass d timeout p'))
    (hnow : (Frame.pass d timeout p).moments hub = now)
    (next : ∀ n, (alone d timeout p').Leads Q (hub'.elapse n) (seen ++ now)) :
    (alone d timeout p).Leads Q hub seen := by
  have hstep : (alone d timeout p).step hub = .ran hub' (alone d timeout p') := by
    simp [alone, Thread.step, Frame.step, hs]
  refine .more hstep fun n => ?_
  simpa [alone, Thread.moments, hnow] using next n

theorem leads_silent (hub' : Hub σ) (p' : Pass σ)
    (hs : p.step hub d timeout = .goes hub' (.pass d timeout p'))
    (hnone : (Frame.pass d timeout p).moments hub = [])
    (next : ∀ n, (alone d timeout p').Leads Q (hub'.elapse n) seen) :
    (alone d timeout p).Leads Q hub seen :=
  leads_seen hub' p' [] hs hnone (by simpa using next)

/-- A hook at work comes to its answer. -/
theorem leads_hooked {who : Participant} {work : Script σ ExpiryOutcome}
    (hw : work.Comes (fun hub' _ => I hub') hub) (hI : ∀ hub n, I hub → I (hub.elapse n))
    (next : ∀ hub' outcome, I hub' →
      (alone d timeout (heard t g who left said outcome)).Leads Q hub'
        (seen ++ [.heard g who outcome])) :
    (alone d timeout (.hooked t g who left said work)).Leads Q hub seen := by
  induction hw with
  | @done hub outcome hi =>
    exact leads_seen hub (heard t g who left said outcome) [.heard g who outcome]
      (by simp [step, runHook, Script.step]) rfl fun n => next _ outcome (hI _ n hi)
  | @goes hub work hub' work' hs hrest ih =>
    refine leads_silent hub' (.hooked t g who left said work') (by simp [step, runHook, hs]) ?_ ih
    cases work <;> first | rfl | simp [Script.step] at hs
  | @calls hub work inner R hs hinner hnext ih =>
    have hstep : (alone d timeout (.hooked t g who left said work)).step hub
        = .ran hub ⟨[inner, .pass d timeout (.hooked t g who left said work)], none⟩ := by
      simp [alone, Thread.step, Frame.step, step, runHook, hs]
    have hnone : Thread.moments hub (alone d timeout (.hooked t g who left said work)) = [] := by
      cases work <;> first | rfl | simp [Script.step] at hs
    refine .more hstep fun n => ?_
    rw [hnone, List.append_nil]
    refine ((hinner ⟨0, 0⟩ none [] n).leads _ [] none seen).trans ?_
    rintro hub'' seen' t' ⟨done', r, hr, rfl, rfl⟩ n'
    simpa [alone, Thread.hears, Frame.hears, Frame.resume, resume] using ih hub'' r hr n'

/-- Whoever is asked about a group answers. -/
theorem leads_answer (ht : Hub.Terms I d register) (hhooks : ∀ hub, I hub → hub.hooks = start.hooks)
    (hi : I hub) {who : Participant} (hwho : who ∈ register)
    (next : ∀ hub' outcome, I hub' →
      (alone d timeout (heard t g who left said outcome)).Leads Q hub'
        (seen ++ start.hearing g (who, outcome))) :
    (alone d timeout (.offering t g (who :: left) said)).Leads Q hub seen := by
  have hanswers := fun hub => ht.answers who hwho hub g
  have hstart := hhooks hub hi
  cases who with
  | handler h =>
    have hstep : (alone d timeout (.offering t g (.handler h :: left) said)).step hub
        = .ran hub ⟨[.offer h g .meeting, .pass d timeout (.waiting t g (.handler h) left said)],
          none⟩ := rfl
    have hasked : Thread.moments hub (alone d timeout (.offering t g (.handler h :: left) said))
        = [.asked g (.handler h) (.call (.offer h g .meeting))] := rfl
    refine .more hstep fun n => ?_
    rw [hasked]
    refine ((hanswers _ (ht.elapse _ n hi) ⟨0, 1⟩ none [] rfl).leads _ [] none _).trans ?_
    rintro hub' seen' t' ⟨done', r, ⟨hi', outcome, rfl⟩, rfl, rfl⟩ n'
    simpa [alone, Thread.hears, Frame.hears, Frame.resume, resume, Hub.hearing,
      Participant.inquiry] using next _ outcome (ht.elapse _ n' hi')
  | hook id =>
    -- the script is the one that the hook has for the group since the start
    obtain ⟨work, hwork, hcomes⟩ : ∃ work : Script σ ExpiryOutcome,
        (start.hooks[id]?).elim (.done .detached) (fun hook => hook g) = work
          ∧ ∀ hub', I hub' → work.Comes (fun hub' _ => I hub') hub' := by
      refine ⟨_, rfl, fun hub' hi' => ?_⟩
      have hanswer := hanswers hub' hi'
      rw [Participant.Answers, hhooks hub' hi'] at hanswer
      rcases hhook : start.hooks[id]? with _ | hook
      · exact .done hi'
      · exact hanswer hook hhook
    have hstep : step hub d timeout (.offering t g (.hook id :: left) said)
        = .goes hub (.pass d timeout (.hooked t g (.hook id) left said work)) := by
      rw [← hstart] at hwork
      rcases hhook : hub.hooks[id]? with _ | hook <;>
        simp_all [step, offer]
    refine leads_seen hub (.hooked t g (.hook id) left said work)
      [.asked g (.hook id) (.script work)] hstep (by simp only [Frame.moments, hstep]) fun n => ?_
    refine leads_hooked (hcomes _ (ht.elapse _ n hi)) ht.elapse fun hub' outcome hi' => ?_
    simpa [Hub.hearing, Participant.inquiry, hwork] using next hub' outcome hi'

/-- All who are still to be asked about a group answer, one after another. -/
theorem leads_offering (ht : Hub.Terms I d register)
    (hhooks : ∀ hub, I hub → hub.hooks = start.hooks) (hi : I hub)
    (hleft : ∀ who ∈ left, who ∈ register)
    (next : ∀ hub' outcomes, I hub' → outcomes.length = left.length →
      (alone d timeout (.offering (hearAll t said (left.zip outcomes)).1 g []
          (hearAll t said (left.zip outcomes)).2)).Leads Q hub'
        (seen ++ (left.zip outcomes).flatMap (start.hearing g))) :
    (alone d timeout (.offering t g left said)).Leads Q hub seen := by
  induction left generalizing hub t said seen with
  | nil => simpa [hearAll] using next hub [] hi rfl
  | cons who left ih =>
    refine leads_answer ht hhooks hi (hleft who List.mem_cons_self) fun hub' outcome hi' => ?_
    refine ih hi' (fun other h => hleft other (List.mem_cons_of_mem _ h))
      fun hub'' outcomes hi'' hlen => ?_
    simpa [hearAll] using next hub'' (outcome :: outcomes) hi'' (by simp [hlen])

/-- A group that nobody answers for is removed if it is still what was selected. -/
theorem leads_claiming (ht : Hub.Terms I d register) (hi : I hub)
    (next : ∀ hub', I hub' →
      (alone d timeout (.next (counted t ((hub.depot d).store.removeUnchanged g).2))).Leads Q hub'
        (seen ++ [.settled g (hub.depot d).store ((hub.depot d).store.removeUnchanged g).1])) :
    (alone d timeout (.claiming t g)).Leads Q hub seen := by
  have hd := ht.opened hub hi
  have hclaim := KeyLocks.tryAcquire?_of_free (ht.free hub hi g.key)
  have hdepot : ∀ depot n, ((hub.setDepot d depot).elapse n).depot d = depot := fun depot _ =>
    Hub.depot_setDepot_self hub depot hd
  have hset : ∀ a b n, ((hub.setDepot d a).elapse n).setDepot d b = (hub.setDepot d b).elapse n :=
    fun a b n => by simp [Hub.setDepot, Hub.elapse]
  have helapse : ∀ (hub : Hub σ) n m, (hub.elapse n).elapse m = hub.elapse (n + m) := fun hub n m =>
    by simp [Hub.elapse, Nat.add_assoc]
  generalize hdep : hub.depot d = depot at *
  refine leads_silent (hub.setDepot d (depot.claim g)) (.comparing t g)
    (by simp only [step, claim, hdep, hclaim, Depot.claim]) rfl fun n => ?_
  have hcompare : step ((hub.setDepot d (depot.claim g)).elapse n) d timeout (.comparing t g)
      = .goes ((hub.setDepot d
          { depot.claim g with store := (depot.store.removeUnchanged g).1 }).elapse n)
        (.pass d timeout (.freeing t g (!(depot.store.removeUnchanged g).1.contains g.key)
          (depot.store.removeUnchanged g).2)) := by
    simp only [step, compare, hdepot, hset]
    rfl
  refine leads_seen _ _ [.settled g depot.store (depot.store.removeUnchanged g).1] hcompare
    ?_ fun m => ?_
  · simp only [Frame.moments, hcompare, hdepot]
    rfl
  refine leads_silent ((hub.setDepot d (depot.sweep g)).elapse (n + m))
    (.next (counted t (depot.store.removeUnchanged g).2)) ?_ rfl fun l => next _ ?_
  · rw [helapse]
    simp only [step, free, hdepot, hset]
    rfl
  · rw [← hdep]
    exact ht.elapse _ l (ht.elapse _ (n + m) (ht.sweep hub g hi))

/-- Once all were asked about a group, the pass counts it or sees to it. -/
theorem leads_polled (ht : Hub.Terms I d register) (hi : I hub) (b : Ballot)
    (hstored : (hub.depot d).store = b.stored)
    (next : ∀ hub', I hub' → (alone d timeout (.next (counted t b.counts))).Leads Q hub'
      (seen ++ .polled b.group b.stored
        :: if b.attended then [] else [.settled b.group b.stored b.settled])) :
    (alone d timeout
      (.offering t b.group [] ⟨b.attended, b.outcomes.any (· = .expired)⟩)).Leads Q hub seen := by
  rcases hattended : b.attended with _ | _
  · -- nobody is there, so the pass sees to the group
    have hremove := Ballot.removeUnchanged_of_not_attended hattended
    refine leads_seen hub (.claiming t b.group) [.polled b.group b.stored] (by simp [step, offer])
      (by simp [Frame.moments, hstored]) fun n => ?_
    have hstored' : ((hub.elapse n).depot d).store = b.stored := hstored
    refine leads_claiming ht (ht.elapse _ n hi) fun hub' hi' => ?_
    simpa [hstored', hremove, hattended] using next hub' hi'
  · have hcounts : b.counts = b.outcomes.any (· = .expired) := by simp [Ballot.counts, hattended]
    rw [← hcounts]
    refine leads_seen hub (.next (counted t b.counts)) [.polled b.group b.stored]
      (by simp [step, offer]) (by simp [Frame.moments, hstored]) fun n => ?_
    simpa [hattended] using next _ (ht.elapse _ n hi)

/-- A pass takes its turn at one group. -/
theorem leads_ballot (ht : Hub.Terms I d register) (hhooks : ∀ hub, I hub → hub.hooks = start.hooks)
    (hi : I hub)
    (next : ∀ hub' (b : Ballot) detached, I hub' → b.group = g →
      b.outcomes.length = register.length →
      (∀ who, who ∈ detached ↔ who ∈ t.detached ∨ b.Absent register who) →
      (alone d timeout (.next (counted { t with detached := detached } b.counts))).Leads Q hub'
        (seen ++ b.moments start register)) :
    (alone d timeout (.offering t g register ⟨false, false⟩)).Leads Q hub seen := by
  refine leads_offering ht hhooks hi (fun _ h => h) fun hub' outcomes hi' hlen => ?_
  obtain ⟨detached, hheard, hmem⟩ := hearAll_tally t ⟨false, false⟩ (register.zip outcomes)
  have hsaid := hearAll_said t ⟨false, false⟩ hlen
  simp only [Bool.false_or] at hsaid
  rw [hheard, hsaid]
  refine leads_polled ht hi' ⟨g, outcomes, (hub'.depot d).store⟩ rfl fun hub'' hi'' => ?_
  simpa [Ballot.moments] using
    next hub'' ⟨g, outcomes, (hub'.depot d).store⟩ detached hi'' rfl hlen hmem

/-- A pass takes its turn at each group that is left, and takes those that were gone off the
register. -/
theorem leads_next (ht : Hub.Terms I d register) (hhooks : ∀ hub, I hub → hub.hooks = start.hooks)
    (hi : I hub) (hpart : t.participants = register) {rest : List Group} (hrest : t.rest = rest)
    (hq : ∀ hub' (ballots : List Ballot), ballots.map Ballot.group = rest →
      (∀ b ∈ ballots, b.outcomes.length = register.length) →
      (hub'.depot d).participants = register.filter
        (fun who => who ∉ t.detached ∧ ∀ b ∈ ballots, ¬b.Absent register who) →
      Q hub' (seen ++ ballots.flatMap (Ballot.moments start register))
        ⟨[], some (.passed (.returned (.ok (t.expired + ballots.countP Ballot.counts))))⟩) :
    (alone d timeout (.next t)).Leads Q hub seen := by
  induction rest generalizing hub t seen with
  | nil =>
    refine leads_silent hub (.pruning t) (by simp [step, takeNext, hrest]) rfl fun n => ?_
    have hi' := ht.elapse _ n hi
    have hlast : (alone d timeout (.pruning t)).step (hub.elapse n)
        = .ran ((hub.elapse n).setDepot d (((hub.elapse n).depot d).prune t.detached))
          ⟨[], some (.passed (.returned (.ok t.expired)))⟩ := rfl
    refine .last hlast ?_
    have hpruned := Hub.depot_setDepot_self (hub.elapse n)
      (((hub.elapse n).depot d).prune t.detached) (ht.opened _ hi')
    simpa [alone, Thread.moments, Frame.moments] using hq _ [] rfl (by simp) (by
      rw [hpruned]
      simp [Depot.prune, ht.steady _ hi'])
  | cons g rest ih =>
    refine leads_silent hub (.offering { t with rest := rest } g register ⟨false, false⟩)
      (by simp [step, takeNext, hrest, hpart]) rfl fun n => ?_
    refine leads_ballot ht hhooks (ht.elapse _ n hi) fun hub' b detached hi' hgroup hlen hmem => ?_
    refine ih hi' hpart rfl fun hub'' ballots hgroups hlens hfinal => ?_
    have hregister : (hub''.depot d).participants = register.filter
        (fun who => who ∉ t.detached ∧ ∀ b' ∈ b :: ballots, ¬b'.Absent register who) := by
      rw [hfinal]
      refine List.filter_congr fun who _ => ?_
      simp [counted, hmem, and_assoc]
    have hlast := hq hub'' (b :: ballots) (by simp [hgroup, hgroups])
      (by simpa [hlen] using hlens) hregister
    have hexpired : (counted { t with detached := detached, rest := rest } b.counts).expired
        + ballots.countP Ballot.counts = t.expired + (b :: ballots).countP Ballot.counts := by
      simp only [List.countP_cons, counted]
      omega
    rw [List.flatMap_cons, ← List.append_assoc] at hlast
    simpa only [hexpired] using hlast

/-- A pass takes its turn at all groups that are stale when it selects. -/
theorem leads_selecting (ht : Hub.Terms I d (hub.depot d).participants)
    (hhooks : ∀ hub', I hub' → hub'.hooks = hub.hooks) (hi : I hub)
    (harrange : ∀ l, (hub.arrange l).Perm l) (n : Nat) :
    (alone d timeout .selecting).Leads (fun hub' seen t' => ∃ ballots, Canvass hub d
      ((hub.depot d).store.stale timeout (hub.clock + n)) ballots seen t'.reply
      (hub'.depot d).participants) (hub.elapse n) [] := by
  generalize hselected : (hub.depot d).store.stale timeout (hub.clock + n) = selected
  have hperm := harrange selected
  -- a pass that is over at once
  have hover : ∀ r, step (hub.elapse n) d timeout .selecting
        = .ends (hub.elapse n) (.passed (.returned r)) →
      (hub.depot d).outages.expire.elim (.ok 0) (fun reason => .error (.synchronisation reason))
        = r →
      (if (hub.depot d).outages.expire = none then selected else []) = [] →
      (alone d timeout .selecting).Leads (fun hub' seen t' => ∃ ballots, Canvass hub d selected
        ballots seen t'.reply (hub'.depot d).participants) (hub.elapse n) [] := by
    intro r hs hr hnone
    have hstep : (alone d timeout .selecting).step (hub.elapse n)
        = .ran (hub.elapse n) ⟨[], some (.passed (.returned r))⟩ := by
      simp [alone, Thread.step, Frame.step, hs]
    refine .last hstep ⟨[], ⟨by rw [hnone]; rfl, by simp, rfl, ?_, ?_⟩⟩
    · rw [← hr]
      rfl
    · exact (List.filter_eq_self.2 (by simp)).symm
  have hpassing : (hub.elapse n).arrange
      (((hub.elapse n).depot d).store.stale timeout (hub.elapse n).clock) = hub.arrange selected :=
    congrArg hub.arrange hselected
  rcases houtage : (hub.depot d).outages.expire with _ | reason
  · have hserves : ((hub.elapse n).depot d).outages.expire = none := houtage
    rcases hstale : hub.arrange selected with _ | ⟨g, rest⟩
    · rw [hstale] at hperm hpassing
      exact hover (.ok 0) (by simp only [step, select, hserves, hpassing]) (by simp [houtage])
        (by simp [hperm.nil_eq.symm])
    · rw [hstale] at hpassing
      refine leads_silent (hub.elapse n) (.consulting (g :: rest))
        (by simp only [step, select, hserves, hpassing]) rfl fun m => ?_
      refine leads_silent ((hub.elapse n).elapse m)
        (.next ⟨(hub.depot d).participants, g :: rest, [], 0⟩) rfl rfl fun l => ?_
      refine leads_next ht hhooks (ht.elapse _ l (ht.elapse _ m (ht.elapse _ n hi))) rfl rfl
        fun hub' ballots hgroups hlens hfinal => ⟨ballots, ?_⟩
      exact {
        groups := by rw [hgroups, if_pos houtage, ← hstale]; exact hperm
        outcomes := hlens
        moments := rfl
        reply := by simp [houtage]
        register := by simpa using hfinal }
  · have hserves : ((hub.elapse n).depot d).outages.expire = some reason := houtage
    exact hover (.error (.synchronisation reason)) (by simp only [step, select, hserves])
      (by simp [houtage]) (by simp [houtage])

end Group

end Pass

/-! ## The hooks stay -/

theorem Script.Comes.keeps {α : Type} {Q : Hub σ → α → Prop} {hub : Hub σ} {s : Script σ α}
    (hs : s.Comes Q hub) : s.Comes (fun hub' a => Q hub' a ∧ hub.SameCode hub') hub := by
  induction hs with
  | done hq => exact .done ⟨hq, .refl _⟩
  | @goes hub s hub' s' hstep hrest ih =>
    exact .goes hstep fun n => (ih n).imp fun hub'' a ⟨hq, hsame⟩ =>
      ⟨hq, (Script.sameCode_goes hstep).trans ((hub'.sameCode_elapse n).trans hsame)⟩
  | @calls hub s inner R hstep hinner hnext ih =>
    refine .calls hstep (R := fun hub' r => R hub' r ∧ hub.SameCode hub')
      (fun p under done n => (hinner p under done n).keeps.imp fun hub' _ r ⟨hr, hsame, _⟩ =>
        ⟨hr, (hub.sameCode_elapse n).trans hsame⟩)
      fun hub' r ⟨hr, hsame⟩ n => (ih hub' r hr n).imp fun hub'' a ⟨hq, hsame'⟩ =>
        ⟨hq, hsame.trans ((hub'.sameCode_elapse n).trans hsame')⟩

/-- Terms between a depot and its participants are also terms under which no hook changes. -/
theorem Hub.Terms.hooks {I : Hub σ → Prop} {d : DepotId} {register : List Participant}
    (ht : Hub.Terms I d register) (start : Hub σ) :
    Hub.Terms (fun hub => I hub ∧ hub.hooks = start.hooks) d register where
  opened hub h := ht.opened hub h.1
  free hub h := ht.free hub h.1
  steady hub h := ht.steady hub h.1
  elapse hub n h := ⟨ht.elapse hub n h.1, h.2⟩
  sweep hub g h := ⟨ht.sweep hub g h.1, h.2⟩
  answers who hwho hub g h := by
    have hanswers := ht.answers who hwho hub g h.1
    cases who with
    | handler id =>
      intro p under done hp
      exact (hanswers p under done hp).keeps.imp fun hub' _ r ⟨⟨hi, hr⟩, hsame, _⟩ =>
        ⟨⟨hi, hsame.hooks.trans h.2⟩, hr⟩
    | hook id =>
      intro hook hhook
      exact (hanswers hook hhook).keeps.imp fun hub' _ ⟨hi, hsame⟩ =>
        ⟨hi, hsame.hooks.trans h.2⟩

/-- A pass over a depot of which no key is held, while nobody else is at work and all who are on the
register answer, keep no key and leave the register alone. It asks each of them, in order, about
each group that is stale when it selects: a hook by the script it has for the group, a handler by an
offer, and what it hears is what this script or this offer comes to. If all of them are gone for a
group, or there is nobody, it sees to the group itself: it removes it if and only if its key is
still stored with the last modification that was selected, and counts it then. If somebody is there,
the pass leaves the group alone, and counts it if and only if somebody expired it. In the end all
registrations of those that were gone for some group are taken off, and no others. -/
theorem Machine.pass_hears_everyone (s : Machine σ) (d : DepotId) (timeout : Nat)
    {I : Hub σ → Prop} (hi : I s.hub) (ht : Hub.Terms I d (s.hub.depot d).participants)
    (harrange : ∀ l, (s.hub.arrange l).Perm l) (delays : Nat → Nat) :
    ∃ k ballots,
      let pass := .event (.start (.expire d timeout)) :: rounds s.threads.length delays k
      Canvass s.hub d ((s.hub.depot d).store.stale timeout (s.hub.clock + delays 0)) ballots
          (s.moments s.threads.length pass) ((s.after pass).reply? s.threads.length)
          ((s.after pass).hub.depot d).participants
        ∧ s.Candid s.threads.length pass := by
  have hstarted : (⟨s.hub.elapse (delays 0), s.threads ++ [Thread.start (.expire d timeout)]⟩ :
      Machine σ).threads[s.threads.length]? = some (Pass.alone d timeout .selecting) := by
    simp [Thread.start, Activity.frame, Pass.alone]
  have hleads := @Pass.leads_selecting σ _ d timeout s.hub (ht.hooks s.hub)
    (fun _ hi' => hi'.2) ⟨hi, rfl⟩ harrange (delays 0)
  obtain ⟨k, hub', t', hafter, ballots, hcanvass⟩ :=
    hleads.run rfl hstarted fun n => delays (n + 1)
  refine ⟨k + 1, ballots, ?_⟩
  intro pass
  refine ⟨?_, s.candid s.threads.length pass⟩
  have hafter' : s.after pass
      = ⟨hub', (s.threads ++ [Thread.start (.expire d timeout)]).set s.threads.length t'⟩ :=
    hafter
  have hreply : (s.after pass).reply? s.threads.length = t'.reply := by
    simp [hafter', reply?]
  rw [hreply, hafter']
  exact hcanvass

/-! ## Participants that only add and remove -/

/-- A script that makes no calls and does not panic. It may change the outside, log, draw ids, add
to groups and remove them. -/
inductive Script.Plain {α : Type} : Script σ α → Prop
  | done (a : α) : Plain (.done a)
  | act {change : σ → σ} {next : σ → Script σ α} : (∀ s, Plain (next s)) → Plain (.act change next)
  | log {r : Log.Record} {next : Script σ α} : Plain next → Plain (.log r next)
  | fresh {next : MessageId → Script σ α} : (∀ id, Plain (next id)) → Plain (.fresh next)
  | add {d : DepotId} {key : Key} {m : Message} {next : Except StoreError Group → Script σ α} :
      (∀ r, Plain (next r)) → Plain (.add d key m next)
  | remove {d : DepotId} {key : Key} {next : Except StoreError (Option Group) → Script σ α} :
      (∀ r, Plain (next r)) → Plain (.remove d key next)

/-- A participant that is gone, or a hook that only adds and removes. -/
def Participant.Plain (hub : Hub σ) : Participant → Prop
  | .handler h => hub.isLive h = false
  | .hook id => ∀ hook, hub.hooks[id]? = some hook → ∀ g, (hook g).Plain

namespace Hub

/-- Two hubs that differ in nothing but what is stored in depots, the time, the ids drawn, the
journal and the outside. -/
structure Restocked (hub hub' : Hub σ) : Prop where
  length : hub'.depots.length = hub.depots.length
  locks : ∀ d, (hub'.depot d).locks = (hub.depot d).locks
  participants : ∀ d, (hub'.depot d).participants = (hub.depot d).participants
  hooks : hub'.hooks = hub.hooks
  members : hub'.members = hub.members

theorem Restocked.refl (hub : Hub σ) : hub.Restocked hub :=
  ⟨rfl, fun _ => rfl, fun _ => rfl, rfl, rfl⟩

theorem Restocked.trans {a b c : Hub σ} (hab : a.Restocked b) (hbc : b.Restocked c) :
    a.Restocked c where
  length := hbc.length.trans hab.length
  locks d := (hbc.locks d).trans (hab.locks d)
  participants d := (hbc.participants d).trans (hab.participants d)
  hooks := hbc.hooks.trans hab.hooks
  members := hbc.members.trans hab.members

theorem restocked_setDepot (hub : Hub σ) (d : DepotId) (store : Store) :
    hub.Restocked (hub.setDepot d { hub.depot d with store := store }) := by
  have hdepot : ∀ other, (hub.setDepot d { hub.depot d with store := store }).depot other
      = if d = other ∧ d < hub.depots.length then { hub.depot d with store := store }
        else hub.depot other := fun other => by
    by_cases hd : d < hub.depots.length
    · simp [depot_setDepot hub other _ hd, hd]
    · simp [hd, setDepot, List.set_eq_of_length_le (Nat.le_of_not_lt hd)]
  refine ⟨by simp, fun other => ?_, fun other => ?_, rfl, rfl⟩ <;>
    rw [hdepot] <;> split_ifs with h
  all_goals first | rfl | rw [h.1]

end Hub

theorem Depot.eq_of_add {depot depot' : Depot} {key : Key} {m : Message} {now : Instant} {g : Group}
    (h : depot.add key m now = .ok (depot', g)) :
    depot' = { depot with store := depot'.store } := by
  unfold add at h
  split at h
  · cases h
  rcases hadd : depot.store.add key m now with e | ⟨store, g'⟩ <;>
    simp only [hadd, Except.map, Except.ok.injEq, Prod.mk.injEq, reduceCtorEq] at h
  rw [← h.1]

theorem Depot.eq_of_remove {depot depot' : Depot} {key : Key} {g : Option Group}
    (h : depot.remove key = .ok (depot', g)) : depot' = { depot with store := depot'.store } := by
  unfold remove at h
  split at h
  · cases h
  · simp only [Except.ok.injEq, Prod.mk.injEq] at h
    rw [← h.1]

/-- A plain script comes to its end, and neither the locks nor the register of a depot change
meanwhile. -/
theorem Script.Plain.comes {α : Type} {s : Script σ α} (hp : s.Plain) (hub : Hub σ) :
    s.Comes (fun hub' _ => hub.Restocked hub') hub := by
  have hlike : ∀ {a b : Hub σ}, b.depots = a.depots → b.hooks = a.hooks → b.members = a.members →
      a.Restocked b := fun hdepots hhooks hmembers =>
    ⟨by rw [hdepots], fun d => by simp [Hub.depot, hdepots], fun d => by simp [Hub.depot, hdepots],
      hhooks, hmembers⟩
  -- one action on, and a delay
  have hone : ∀ {s : Script σ α} {hub : Hub σ} (hub' : Hub σ) (s' : Script σ α),
      s.step hub = .goes hub' s' → hub.Restocked hub' →
      (∀ hub, s'.Comes (fun hub' _ => hub.Restocked hub') hub) →
      s.Comes (fun hub' _ => hub.Restocked hub') hub := fun hub' s' hs hr ih =>
    .goes hs fun n => by
      have helapsed : hub'.Restocked (hub'.elapse n) := hlike rfl rfl rfl
      exact (ih _).imp fun hub'' _ hrest => hr.trans (helapsed.trans hrest)
  induction hp generalizing hub with
  | done a => exact .done (.refl hub)
  | act hnext ih => exact hone _ _ rfl (hlike rfl rfl rfl) (ih _)
  | log hnext ih => exact hone _ _ rfl (hlike rfl rfl rfl) ih
  | fresh hnext ih => exact hone _ _ rfl (hlike rfl rfl rfl) (ih _)
  | @add d key m next hnext ih =>
    rcases hadd : (hub.depot d).add key m hub.clock with e | ⟨depot, g⟩
    · exact hone hub (next (.error e)) (by simp [Script.step, hadd]) (.refl hub) (ih _)
    · refine hone (hub.setDepot d depot) (next (.ok g)) (by simp [Script.step, hadd]) ?_ (ih _)
      rw [Depot.eq_of_add hadd]
      exact hub.restocked_setDepot d _
  | @remove d key next hnext ih =>
    rcases hremove : (hub.depot d).remove key with e | ⟨depot, g⟩
    · exact hone hub (next (.error e)) (by simp [Script.step, hremove]) (.refl hub) (ih _)
    · refine hone (hub.setDepot d depot) (next (.ok g)) (by simp [Script.step, hremove]) ?_ (ih _)
      rw [Depot.eq_of_remove hremove]
      exact hub.restocked_setDepot d _

theorem Depot.Free.sweep {depot : Depot} (h : depot.Free) (g : Group) : (depot.sweep g).Free := by
  intro key e he
  simp only [Depot.sweep, Depot.claim, Depot.release] at he
  generalize (depot.store.removeUnchanged g).1.contains g.key = kept at he
  cases kept
  · rw [Bool.not_false, KeyLocks.find?_release_retire] at he
    split_ifs at he with hkey
    rw [KeyLocks.find?_set, if_neg hkey] at he
    exact h key e he
  · rw [Bool.not_true, KeyLocks.find?_release_keep] at he
    split_ifs at he with hkey
    · rw [KeyLocks.find?_set, if_pos rfl] at he
      cases he
      rfl
    · rw [KeyLocks.find?_set, if_neg hkey] at he
      exact h key e he

/-- There are terms under which those who are gone and hooks that only add and remove take part. -/
theorem Hub.exists_terms {hub : Hub σ} {d : DepotId} (hd : d < hub.depots.length)
    (hfree : (hub.depot d).Free) (hwho : ∀ who ∈ (hub.depot d).participants, who.Plain hub) :
    ∃ I : Hub σ → Prop, I hub ∧ Hub.Terms I d (hub.depot d).participants := by
  refine ⟨fun hub' => d < hub'.depots.length ∧ (hub'.depot d).Free
    ∧ (hub'.depot d).participants = (hub.depot d).participants ∧ hub'.hooks = hub.hooks
    ∧ hub'.members = hub.members, ⟨hd, hfree, rfl, rfl, rfl⟩, ?_⟩
  refine ⟨fun _ h => h.1, fun _ h => h.2.1, fun _ h => h.2.2.1, fun _ _ h => h, ?_, ?_⟩
  · rintro hub' g ⟨hd', hfree, hpart, hhooks, hmembers⟩
    have hdepot := depot_setDepot_self hub' ((hub'.depot d).sweep g) hd'
    exact ⟨by simpa using hd', by rw [hdepot]; exact hfree.sweep g, by rw [hdepot]; exact hpart,
      hhooks, hmembers⟩
  · rintro who hmem hub' g ⟨hd', hfree, hpart, hhooks, hmembers⟩
    have hplain := hwho who hmem
    cases who with
    | handler i =>
      intro p under done _
      have hgone : hub'.isLive i = false := by
        rw [← hplain]
        simp [isLive, member?, hmembers]
      have hends : (Frame.offer i g .meeting).step hub'
          = .ends hub' (.offered (.returned .detached)) := by
        rcases hm : hub'.member? i with _ | m <;>
          simp [Frame.step, Offer.step, Offer.meet, hm, hgone]
      exact .ends hends ⟨⟨hd', hfree, hpart, hhooks, hmembers⟩, _, rfl⟩
    | hook id =>
      intro hook hhook
      rw [hhooks] at hhook
      refine ((hplain hook hhook g).comes hub').imp fun hub'' _ hr => ?_
      exact ⟨by rw [hr.length]; exact hd', by rw [Depot.Free, hr.locks]; exact hfree,
        by rw [hr.participants, hpart], by rw [hr.hooks, hhooks], by rw [hr.members, hmembers]⟩

/-! ## Two hooks, one of them twice -/

/-- A hook that is gone, but adds to the group of `b` on the way. -/
def restless (g : Group) : Script Unit ExpiryOutcome :=
  if g.key = ⟨"b"⟩ then
    .add 0 g.key ⟨⟨"more"⟩, ⟨.null, none, 0, 0, .empty⟩⟩ fun _ => .done .detached
  else .done .detached

/-- A hook that expires the group of `a` and is gone for all others. -/
def picky (g : Group) : Script Unit ExpiryOutcome :=
  if g.key = ⟨"a"⟩ then .remove 0 g.key fun _ => .done .expired else .done .detached

/-- A depot of three stale groups, with both hooks on its register. -/
def crowded : Machine Unit where
  hub := { (Hub.initial () fun _ => ⟨""⟩) with
    depots := [{ (Depot.empty none) with
      store :=
        ⟨none, .ofList ([⟨"a"⟩, ⟨"b"⟩, ⟨"c"⟩].map fun key : Key => (key.text, ⟨key, [], 0⟩))⟩
      participants := [.hook 0, .hook 1, .hook 0] }]
    hooks := [restless, picky]
    clock := 5 }
  threads := []

theorem plain_crowded :
    ∀ who ∈ (crowded.hub.depot 0).participants, who.Plain crowded.hub := by
  have hrestless : ∀ g, (restless g).Plain := fun g => by
    unfold restless
    split_ifs
    · exact .add fun _ => .done _
    · exact .done _
  have hpicky : ∀ g, (picky g).Plain := fun g => by
    unfold picky
    split_ifs
    · exact .remove fun _ => .done _
    · exact .done _
  intro who hwho
  have hregister : (crowded.hub.depot 0).participants = [.hook 0, .hook 1, .hook 0] := rfl
  rw [hregister] at hwho
  obtain rfl | rfl : who = .hook 0 ∨ who = .hook 1 := by
    simp only [List.mem_cons, List.not_mem_nil, or_false] at hwho
    tauto
  · rintro hook ⟨⟩
    exact hrestless
  · rintro hook ⟨⟩
    exact hpicky

/-- Both hooks are asked about all three groups, the first one twice. -/
theorem crowded_hears_everyone :
    crowded.hub.depots.length = 1 ∧ (crowded.hub.depot 0).Free
      ∧ ((crowded.hub.depot 0).store.stale 3 5).map Group.key = [⟨"a"⟩, ⟨"b"⟩, ⟨"c"⟩]
      ∧ (∀ g, Participant.inquiry crowded.hub g (.hook 0) = .script (restless g))
      ∧ (∀ g, Participant.inquiry crowded.hub g (.hook 1) = .script (picky g))
      ∧ ∃ k ballots,
        let pass := .event (.start (.expire 0 3)) :: rounds 0 (fun _ => 0) k
        Canvass crowded.hub 0 ((crowded.hub.depot 0).store.stale 3 5) ballots
            (crowded.moments 0 pass) ((crowded.after pass).reply? 0)
            ((crowded.after pass).hub.depot 0).participants
          ∧ crowded.Candid 0 pass := by
  have hfree : (crowded.hub.depot 0).Free := fun key e he => by cases he
  have hopened : 0 < crowded.hub.depots.length := Nat.zero_lt_one
  obtain ⟨I, hi, ht⟩ := Hub.exists_terms hopened hfree plain_crowded
  exact ⟨rfl, hfree, by decide, fun _ => rfl, fun _ => rfl,
    crowded.pass_hears_everyone 0 3 hi ht (fun _ => .refl _) fun _ => 0⟩

end Collate
