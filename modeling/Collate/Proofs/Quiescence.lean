import Collate.Proofs.Agreement
import Collate.Proofs.Apart
import Collate.Proofs.Resting

/-!
# Expiry at rest

A pass over a depot at rest is exact, if the code behind its handlers leaves the depot alone: it
takes each group that is idle for long enough at the selection, with its lock entry, and touches
nothing else (`Machine.quiescent_pass_exact`). Each of these groups comes to its owner if the owner
is there, else to the first handler on the register that is there, and else the pass removes it
(`Hub.expirer?`). Whatever channels and processors answer, the handler acts on the group once, as
its settings say, with its own processor or discard channel, and the pass counts it.
-/

namespace Collate

variable {σ : Type}

/-! ## What a pass comes to -/

namespace Hub

/-- The first of some participants that is a handler and is there. -/
def firstLive? (hub : Hub σ) (among : List Participant) : Option HandlerId :=
  among.findSome? fun
    | .handler h => if hub.isLive h then some h else none
    | .hook _ => none

/-- Who expires the group of a key in a depot at rest: the owner of its entry if that handler is
there, or else the first one on the register that is. -/
def expirer? (hub : Hub σ) (d : DepotId) (key : Key) : Option HandlerId :=
  (((hub.lock? d key).bind LockEntry.owner).filter hub.isLive).or
    (hub.firstLive? (hub.depot d).participants)

/-- All that is done with a group that expires, by a handler or by the pass alone. -/
def farewell (hub : Hub σ) (d : DepotId) (timeout : Nat) (g : Group) (t : Instant) :
    Option HandlerId → List Doing
  | some h => ((hub.handler? h).elim [] fun handler => handler.expiryDoings h g)
      ++ [.removed d g.key (some g) t (.offer (some timeout))]
  | none => [.removed d g.key (some g) t (.pass timeout)]

end Hub

/-- A handler that gathers in a depot and whose code leaves the depot alone. -/
structure Participant.Apt (I : Hub σ → Prop) (d : DepotId) (hub : Hub σ) (h : HandlerId)
    (handler : Handler σ) : Prop where
  known : hub.handler? h = some handler
  home : handler.depot = d
  process : ∀ g, (handler.process g).Apart I d
  discard : ∀ c, handler.discard = some c → ∀ m, (c.send m).Apart I d

/-- A group that waits for a pass at rest: stored, its key held by nobody, and owned by nobody or
by a handler that is there and on the register. -/
structure Hub.Ripe (start : Hub σ) (d : DepotId) (shelf : Shelf) (g : Group) : Prop where
  stored : shelf.group? g.key = some g
  full : g.isEmpty = false
  entry : ∃ owner, start.lock? d g.key = some ⟨false, owner⟩
    ∧ shelf.lock? g.key = some ⟨false, owner⟩
    ∧ ∀ h, owner = some h → start.isLive h = true ∧ .handler h ∈ (start.depot d).participants

theorem Hub.Ripe.clear {start : Hub σ} {d : DepotId} {shelf : Shelf} {g g' : Group}
    (hr : start.Ripe d shelf g) (hne : g.key ≠ g'.key) : start.Ripe d (shelf.clear g'.key) g where
  stored := by rw [Shelf.clear_group?, if_neg hne, hr.stored]
  full := hr.full
  entry := by
    rw [Shelf.clear_lock?, if_neg hne]
    exact hr.entry

/-- A tally with one more group counted, whoever was found gone meanwhile. -/
structure Tally.Counts (t t' : Tally) : Prop where
  rest : t'.rest = t.rest
  participants : t'.participants = t.participants
  expired : t'.expired = t.expired + 1

theorem Tally.Counts.of_hear {t t' : Tally} {said : Responses} {who : Participant}
    {o : ExpiryOutcome} (h : (Pass.hear t said who o).1.Counts t') : t.Counts t' := by
  obtain ⟨hrest, hpart, hexp⟩ := h
  cases o
  case detached =>
    simp only [Pass.hear] at hrest hpart hexp
    split_ifs at hrest hpart hexp <;> exact ⟨hrest, hpart, hexp⟩
  all_goals exact ⟨hrest, hpart, hexp⟩

namespace Pass

variable {I : Hub σ → Prop} {d : DepotId} {timeout : Nat} {start hub : Hub σ} {shelf : Shelf}
  {g : Group} {Q : Hub σ → List Doing → Reply → Prop} {p : Place} {under : Option (Frame σ)}
  {done : List Doing} {t : Tally} {left : List Participant}

variable (hI : ∀ a b : Hub σ, I a → a.Elsewhere d b → I b)
include hI

/-- Once a group is gone, whoever is asked about it leaves it alone. -/
theorem comes_offering_gone (hm : hub.Midway I d start shelf)
    (hapt : ∀ who ∈ left, ∃ h handler, who = .handler h ∧ Participant.Apt I d start h handler)
    (hg : shelf.group? g.key = none) (hlock : shelf.lock? g.key = none)
    (next : ∀ (hub' : Hub σ) (t' : Tally), hub'.Midway I d start shelf → t.Counts t' →
      (Frame.pass d timeout (.next t')).Comes Q p under hub' done) :
    (Frame.pass d timeout (.offering t g left ⟨true, true⟩)).Comes Q p under hub done := by
  induction left generalizing hub t with
  | nil =>
    exact .silent hub (.pass d timeout (.next (counted t true))) rfl rfl
      fun n => next _ _ (hm.elapse hI n) ⟨rfl, rfl, rfl⟩
  | cons who left ih =>
    obtain ⟨h, handler, rfl, hapt₀⟩ := hapt _ List.mem_cons_self
    have hrest := fun who hw => hapt who (List.mem_cons_of_mem _ hw)
    have hstep : (Frame.pass d timeout (.offering t g (.handler h :: left) ⟨true, true⟩)).step hub
        = .calls hub (.pass d timeout (.waiting t g (.handler h) left ⟨true, true⟩))
          (.offer h g .meeting) := rfl
    refine .calls hstep (R := fun hub' done' r => hub'.Midway I d start shelf
      ∧ done' = done ∧ ∃ o, o ≠ .expired ∧ r = .offered (.returned o)) (fun n => ?_) ?_
    · have hmn := hm.elapse hI n
      rcases hl : start.isLive h with _ | _
      · exact Offer.comes_detached hmn hapt₀.known hl ⟨hmn, rfl, .detached, by simp, rfl⟩
      · exact Offer.comes_late hI hapt₀.known hapt₀.home hl hmn hg hlock
          fun hub' hm' => ⟨hm', rfl, .skipped, by simp, rfl⟩
    · rintro hub' done' r ⟨hm', rfl, o, ho, rfl⟩ n
      have hsaid : (hear t ⟨true, true⟩ (.handler h) o).2 = ⟨true, true⟩ := by
        cases o
        · exact absurd rfl ho
        · rfl
        · rfl
      have hasked := ih (t := (hear t ⟨true, true⟩ (.handler h) o).1) (hm'.elapse hI n) hrest
        fun hub'' t' hm'' ht => next hub'' t' hm'' ht.of_hear
      simp only [Frame.resume, resume, heard, hsaid]
      exact hasked

theorem comes_freeing (hm : hub.Midway I d start shelf) (hg : shelf.group? g.key = none)
    (next : ∀ (hub' : Hub σ) (t' : Tally), hub'.Midway I d start (shelf.clear g.key) →
      t.Counts t' → (Frame.pass d timeout (.next t')).Comes Q p under hub' done) :
    (Frame.pass d timeout (.freeing t g true true)).Comes Q p under hub done := by
  have hfreed : (hub.setDepot d ((hub.depot d).release g.key true)).Midway I d start
      (shelf.clear g.key) := by
    refine hm.setDepot hI rfl rfl ?_
    rw [Depot.shelf_release, hm.shelf, Shelf.clear, Shelf.setGroup_of_eq hg]
    rfl
  exact .silent _ (.pass d timeout (.next (counted t true))) rfl rfl fun n =>
    next _ _ (hfreed.elapse hI n) ⟨rfl, rfl, rfl⟩

theorem comes_comparing (hp : p.depth = 0) (hm : hub.Midway I d start shelf)
    (hg : shelf.group? g.key = some g)
    (next : ∀ (hub' : Hub σ) (t' : Tally) time, hub'.Midway I d start (shelf.clear g.key) →
      t.Counts t' → (Frame.pass d timeout (.next t')).Comes Q p under hub'
        (done ++ start.farewell d timeout g time none)) :
    (Frame.pass d timeout (.comparing t g)).Comes Q p under hub done := by
  have hfind : (hub.depot d).store.find? g.key = some g :=
    (congrFun (congrArg Shelf.group? hm.shelf) g.key).trans hg
  have hsame : (hub.depot d).store.isUnchanged g = true := Store.isUnchanged_iff.2 ⟨g, hfind, rfl⟩
  have hgone : ((hub.depot d).store.remove g.key).1.contains g.key = false := by
    simp [Store.contains, Store.find?_remove]
  have hswept : (hub.setDepot d
      { hub.depot d with store := ((hub.depot d).store.remove g.key).1 }).Midway I d start
      (shelf.setGroup g.key none) :=
    hm.setDepot hI rfl rfl (by rw [Depot.shelf_remove, hm.shelf])
  refine .does _ (.pass d timeout (.freeing t g true true))
    (x := .removed d g.key (some g) hub.clock (.pass timeout)) ?_ ?_ (by simp [Note.deed?, hp])
    fun n => comes_freeing hI (hswept.elapse hI n) (by simp) fun hub' t' hm' ht' =>
      next hub' t' hub.clock (by simpa using hm') ht'
  · simp [Frame.step, step, compare, Store.removeUnchanged_of_unchanged hsame, hgone]
  · simp [Frame.doing, doing, hfind]

/-- A group of which nobody who was asked is there is removed by the pass. -/
theorem comes_claiming (hp : p.depth = 0) (hm : hub.Midway I d start shelf)
    (hg : shelf.group? g.key = some g) (hlock : shelf.lock? g.key = some ⟨false, none⟩)
    (next : ∀ (hub' : Hub σ) (t' : Tally) time, hub'.Midway I d start (shelf.clear g.key) →
      t.Counts t' → (Frame.pass d timeout (.next t')).Comes Q p under hub'
        (done ++ start.farewell d timeout g time none)) :
    (Frame.pass d timeout (.claiming t g)).Comes Q p under hub done := by
  have hentry : (hub.depot d).locks.find? g.key = some ⟨false, none⟩ :=
    (congrFun (congrArg Shelf.lock? hm.shelf) g.key).trans hlock
  have hheld : (hub.setDepot d { hub.depot d with
      locks := (hub.depot d).locks.set g.key ⟨true, none⟩ }).Midway I d start
      (shelf.setLock g.key (some ⟨true, none⟩)) :=
    hm.setDepot hI rfl rfl (by rw [Depot.shelf_set, hm.shelf])
  refine .silent _ (.pass d timeout (.comparing t g)) ?_ rfl fun n =>
    comes_comparing hI hp (hheld.elapse hI n) hg (by simpa using next)
  simp [Frame.step, step, claim, KeyLocks.tryAcquire?, hentry]

/-- A stored group of which the owner, if it has one, is still to be asked is expired: by the owner,
or else by the first of those still to be asked that is there, or else by the pass. -/
theorem comes_offering (hp : p.depth = 0) (hm : hub.Midway I d start shelf)
    (hapt : ∀ who ∈ left, ∃ h handler, who = .handler h ∧ Participant.Apt I d start h handler)
    (hg : shelf.group? g.key = some g) (hfull : g.isEmpty = false) {owner : Option Owner}
    (hlock : shelf.lock? g.key = some ⟨false, owner⟩) {said : Responses}
    (hsaid : owner = none ∧ said = ⟨false, false⟩
      ∨ ∃ h, owner = some h ∧ start.isLive h = true ∧ .handler h ∈ left)
    (next : ∀ (hub' : Hub σ) (t' : Tally) time, hub'.Midway I d start (shelf.clear g.key) →
      t.Counts t' → (Frame.pass d timeout (.next t')).Comes Q p under hub'
        (done ++ start.farewell d timeout g time (owner.or (start.firstLive? left)))) :
    (Frame.pass d timeout (.offering t g left said)).Comes Q p under hub done := by
  induction left generalizing hub t said with
  | nil =>
    obtain ⟨rfl, rfl⟩ | ⟨h, -, -, hmem⟩ := hsaid
    · exact .silent hub (.pass d timeout (.claiming t g)) rfl rfl fun n =>
        comes_claiming hI hp (hm.elapse hI n) hg hlock next
    · cases hmem
  | cons who left ih =>
    obtain ⟨h, handler, rfl, hapt₀⟩ := hapt _ List.mem_cons_self
    have hrest := fun who hw => hapt who (List.mem_cons_of_mem _ hw)
    have hstep : (Frame.pass d timeout (.offering t g (.handler h :: left) said)).step hub
        = .calls hub (.pass d timeout (.waiting t g (.handler h) left said))
          (.offer h g .meeting) := rfl
    have hdepth : p.above.depth = 1 := by rw [Place.above, hp]
    rcases hl : start.isLive h with _ | _
    · -- a handler that is gone says so, and is not the owner
      refine .calls hstep (R := fun hub' done' r => hub'.Midway I d start shelf
        ∧ done' = done ∧ r = .offered (.returned .detached)) (fun n =>
          Offer.comes_detached (hm.elapse hI n) hapt₀.known hl ⟨hm.elapse hI n, rfl, rfl⟩) ?_
      rintro hub' done' r ⟨hm', rfl, rfl⟩ n
      refine ih (t := (hear t said (.handler h) .detached).1) (hm'.elapse hI n) hrest ?_
        fun hub'' t' time hm'' ht' => ?_
      · refine hsaid.imp_right fun hasked => ?_
        obtain ⟨h', howner, hlive, hmem⟩ := hasked
        refine ⟨h', howner, hlive, ?_⟩
        rcases List.mem_cons.1 hmem with heq | hmem
        · cases heq
          rw [hl] at hlive
          cases hlive
        · exact hmem
      · simpa [Hub.firstLive?, hl] using next hub'' t' time hm'' ht'.of_hear
    · by_cases hown : owner = none ∨ owner = some h
      · have hwho : owner.or (start.firstLive? (.handler h :: left)) = some h := by
          rcases hown with rfl | rfl <;> simp [Hub.firstLive?, hl]
        rw [hwho] at next
        refine .calls hstep (R := fun hub' done' r => hub'.Midway I d start (shelf.clear g.key)
          ∧ (∃ time, done' = done ++ start.farewell d timeout g time (some h))
          ∧ r = .offered (.returned .expired)) (fun n =>
            Offer.comes_expired hI hapt₀.known hapt₀.home hl hapt₀.process hapt₀.discard hdepth
              (hm.elapse hI n) hg hfull hlock hown fun hub' time hm' => ⟨hm', ⟨time, ?_⟩, rfl⟩) ?_
        · simp [Hub.farewell, hapt₀.known, Frame.timeout?]
        · rintro hub' done' r ⟨hm', ⟨time, rfl⟩, rfl⟩ n
          exact comes_offering_gone hI (hm'.elapse hI n) hrest (by simp [Shelf.clear_group?])
            (by simp [Shelf.clear_lock?]) fun hub'' t' hm'' ht' => next hub'' t' time hm'' ht'
      · -- the owner comes later
        obtain ⟨howner, -⟩ | ⟨other, howner, hlive, hmem⟩ := hsaid
        · exact absurd (.inl howner) hown
        · subst howner
          have hne : other ≠ h := fun heq => hown (.inr (congrArg some heq))
          refine .calls hstep (R := fun hub' done' r => hub'.Midway I d start shelf
            ∧ done' = done ∧ r = .offered (.returned .skipped)) (fun n =>
              Offer.comes_foreign hI hapt₀.known hapt₀.home hl (hm.elapse hI n) hlock hne
                fun hub' hm' => ⟨hm', rfl, rfl⟩) ?_
          rintro hub' done' r ⟨hm', rfl, rfl⟩ n
          refine ih (hm'.elapse hI n) hrest (.inr ⟨other, rfl, hlive, ?_⟩)
            fun hub'' t' time hm'' ht' => by simpa using next hub'' t' time hm'' ht'
          rcases List.mem_cons.1 hmem with heq | hmem
          · cases heq
            exact absurd rfl hne
          · exact hmem

/-- The groups that are selected are expired one after another, and each is counted. -/
theorem comes_next (hp : p.depth = 0) (hm : hub.Midway I d start shelf)
    (hapt : ∀ who ∈ (start.depot d).participants,
      ∃ h handler, who = .handler h ∧ Participant.Apt I d start h handler)
    (hpart : t.participants = (start.depot d).participants) {rest : List Group}
    (hrest : t.rest = rest) (hripe : ∀ g ∈ rest, start.Ripe d shelf g)
    (hkeys : (rest.map Group.key).Nodup)
    (hq : ∀ (hub' : Hub σ) times, times.length = rest.length →
      (hub'.depot d).shelf = rest.foldl (fun s g => s.clear g.key) shelf →
      Q hub' (done ++ (List.zipWith (fun g time =>
          start.farewell d timeout g time (start.expirer? d g.key)) rest times).flatten)
        (.passed (.returned (.ok (t.expired + rest.length))))) :
    (Frame.pass d timeout (.next t)).Comes Q p under hub done := by
  induction rest generalizing hub t done shelf with
  | nil =>
    refine .silent hub (.pass d timeout (.pruning t)) ?_ rfl fun n => .ends rfl ?_
    · simp [Frame.step, step, takeNext, hrest]
    · have hmn := hm.elapse hI n
      have hpruned : (((hub.elapse n).setDepot d
          (((hub.elapse n).depot d).prune t.detached)).depot d).shelf = shelf := by
        rw [Hub.depot_setDepot_self _ _ hmn.opened]
        exact hmn.shelf
      simpa using hq _ [] rfl hpruned
  | cons g rest ih =>
    obtain ⟨hstored, hfull, owner, hstart, hlock, hown⟩ := hripe g List.mem_cons_self
    have hwho : start.expirer? d g.key = owner.or (start.firstLive? t.participants) := by
      rw [Hub.expirer?, hstart, hpart]
      rcases owner with _ | h
      · rfl
      · simp [(hown h rfl).1]
    have hstep : (Frame.pass d timeout (.next t)).step hub = .goes hub
        (.pass d timeout (.offering { t with rest := rest } g t.participants ⟨false, false⟩)) := by
      simp [Frame.step, step, takeNext, hrest]
    refine .silent _ _ hstep rfl fun n => ?_
    refine comes_offering hI hp (hm.elapse hI n) (hpart ▸ hapt) hstored hfull hlock ?_
      fun hub' t' time hm' ht' => ?_
    · rcases owner with _ | h
      · exact .inl ⟨rfl, rfl⟩
      · exact .inr ⟨h, rfl, (hown h rfl).1, hpart ▸ (hown h rfl).2⟩
    · have hne : ∀ g' ∈ rest, g'.key ≠ g.key := fun g' hg' heq =>
        (List.nodup_cons.1 hkeys).1 (heq ▸ List.mem_map_of_mem hg')
      refine ih hm' (ht'.participants.trans hpart) ht'.rest
        (fun g' hg' => (hripe g' (List.mem_cons_of_mem _ hg')).clear (hne g' hg'))
        (List.nodup_cons.1 hkeys).2 fun hub'' times hlen hshelf => ?_
      have hlast := hq hub'' (time :: times) (by simp [hlen]) hshelf
      rw [← hwho, ht'.expired]
      simpa [Nat.add_comm, Nat.add_left_comm] using hlast

/-- A pass over a depot at rest expires what it selects. -/
theorem comes_selecting (hp : p.depth = 0) (hservice : (hub.depot d).InService)
    (hapt : ∀ who ∈ (start.depot d).participants,
      ∃ h handler, who = .handler h ∧ Participant.Apt I d start h handler) {stale : List Group}
    (hstale : hub.arrange ((hub.depot d).store.stale timeout hub.clock) = stale)
    (hm : stale ≠ [] → hub.Midway I d start shelf) (hshelf : (hub.depot d).shelf = shelf)
    (hripe : ∀ g ∈ stale, start.Ripe d shelf g) (hkeys : (stale.map Group.key).Nodup)
    (hq : ∀ (hub' : Hub σ) times, times.length = stale.length →
      (hub'.depot d).shelf = stale.foldl (fun s g => s.clear g.key) shelf →
      Q hub' (done ++ (List.zipWith (fun g time =>
          start.farewell d timeout g time (start.expirer? d g.key)) stale times).flatten)
        (.passed (.returned (.ok stale.length)))) :
    (Frame.pass d timeout .selecting).Comes Q p under hub done := by
  have houtage : (hub.depot d).outages.expire = none := by rw [hservice]
  by_cases hnil : stale = []
  · subst hnil
    have hstep : (Frame.pass d timeout .selecting).step hub
        = .ends hub (.passed (.returned (.ok 0))) := by
      simp [Frame.step, step, select, houtage, hstale]
    exact .ends hstep (by simpa using hq hub [] rfl hshelf)
  · have hstep : (Frame.pass d timeout .selecting).step hub
        = .goes hub (.pass d timeout (.consulting stale)) := by
      simp only [Frame.step, step, select, houtage, hstale]
    refine .goes hstep fun n => ?_
    simp only [Frame.deed, Frame.doing, doing, Option.map_some, Option.toList_some, deeds,
      List.filterMap_cons, Note.deed?, List.filterMap_nil, List.append_nil]
    have hmn := (hm hnil).elapse hI n
    refine .silent (hub.elapse n)
      (.pass d timeout (.next ⟨((hub.elapse n).depot d).participants, stale, [], 0⟩)) rfl rfl
      fun n' => comes_next hI hp (hmn.elapse hI n') hapt hmn.participants rfl hripe hkeys ?_
    simpa using hq

end Pass

/-! ## At rest -/

theorem Shelf.foldl_clear_group? (l : List Group) (s : Shelf) (key : Key) :
    (l.foldl (fun s g => s.clear g.key) s).group? key
      = if key ∈ l.map Group.key then none else s.group? key := by
  induction l generalizing s with
  | nil => rfl
  | cons g l ih =>
    simp only [List.foldl_cons, ih, Shelf.clear_group?, List.map_cons, List.mem_cons]
    by_cases hkey : key = g.key <;> simp [hkey]

theorem Shelf.foldl_clear_lock? (l : List Group) (s : Shelf) (key : Key) :
    (l.foldl (fun s g => s.clear g.key) s).lock? key
      = if key ∈ l.map Group.key then none else s.lock? key := by
  induction l generalizing s with
  | nil => rfl
  | cons g l ih =>
    simp only [List.foldl_cons, ih, Shelf.clear_lock?, List.map_cons, List.mem_cons]
    by_cases hkey : key = g.key <;> simp [hkey]

section Selection

variable {depot : Depot} {timeout : Nat} {now : Instant}

/-- On a tidy shelf each group is selected under its own key. -/
theorem Depot.mem_stale_iff (ht : depot.shelf.Tidy) {g : Group} :
    g ∈ depot.store.stale timeout now
      ↔ depot.store.find? g.key = some g ∧ g.isIdleFor timeout now = true := by
  refine ⟨fun hg => ?_, fun ⟨hg, hidle⟩ => ?_⟩
  · obtain ⟨hidle, key, hkey⟩ := Store.mem_stale hg
    obtain rfl := (ht key g hkey).1
    exact ⟨hkey, by simpa [Group.isIdleFor] using hidle⟩
  · exact List.mem_filter.2 ⟨(Dictionary.mem_values_iff _).2 ⟨g.key.text, hg⟩, hidle⟩

theorem Depot.nodup_stale_keys (ht : depot.shelf.Tidy) :
    ((depot.store.stale timeout now).map Group.key).Nodup := by
  have hnames : (depot.store.groups.values.map fun g => g.key.text).Nodup := by
    have heq : depot.store.groups.values.map (fun g => g.key.text) = depot.store.groups.names := by
      unfold Dictionary.values Dictionary.names
      rw [List.map_map]
      refine List.map_congr_left fun ⟨name, g⟩ hrow => ?_
      have hget := (Dictionary.mem_rows_iff _).1 hrow
      exact congrArg Key.text (ht ⟨name⟩ g hget).1
    rw [heq]
    exact depot.store.groups.nodup_names
  have hkeys : (depot.store.groups.values.map Group.key).Nodup :=
    List.pairwise_map.2
      ((List.pairwise_map.1 hnames).imp fun hne heq => hne (congrArg Key.text heq))
  exact hkeys.sublist (List.filter_sublist.map _)

theorem Depot.key_mem_stale_iff (ht : depot.shelf.Tidy) (key : Key) :
    key ∈ (depot.store.stale timeout now).map Group.key
      ↔ (depot.store.find? key).any (fun g => g.isIdleFor timeout now) = true := by
  rw [List.mem_map]
  refine ⟨fun ⟨g, hg, hkey⟩ => ?_, fun hany => ?_⟩
  · subst hkey
    obtain ⟨hfind, hidle⟩ := (mem_stale_iff ht).1 hg
    simp [hfind, hidle]
  · rcases hfind : depot.store.find? key with _ | g
    · simp [hfind] at hany
    have hidle : g.isIdleFor timeout now = true := by simpa [hfind] using hany
    obtain rfl := (ht key g hfind).1
    exact ⟨g, (mem_stale_iff ht).2 ⟨hfind, hidle⟩, rfl⟩

end Selection

namespace Machine

/-- At rest, with nobody but handlers on the register, a group in the depot is ripe. -/
theorem ripe_of_over {s : Machine σ} {notes : List Note} {d : DepotId}
    (hg : Governed s.hub s.frameAt notes) (hover : ∀ t ∈ s.threads, t.isOver = true) {g : Group}
    (hfind : (s.hub.depot d).store.find? g.key = some g) :
    s.hub.Ripe d (s.hub.depot d).shelf g := by
  have hrest : ∀ p, grips s.hub s.frameAt d p = none := fun p => by
    simp [grips, frameAt_of_over hover p]
  have hsome := (hg.sound d).same_keys hrest g.key
  rw [show (s.hub.depot d).shelf.group? g.key = some g from hfind] at hsome
  obtain ⟨⟨held, owner⟩, hentry⟩ := Option.isSome_iff_exists.1 hsome
  have hfree : held = false := by
    by_contra hheld
    obtain ⟨p, x, hp⟩ := (hg.sound d).owned g.key _ hentry (by simpa using hheld)
    rw [hrest p] at hp
    cases hp
  subst hfree
  refine ⟨hfind, ?_, owner, hentry, hentry, fun h howner => ?_⟩
  · simpa [Group.isEmpty] using ((hg.sound d).tidy g.key g hfind).2
  · obtain ⟨hhome, hlive | ⟨p, f, hp, -⟩⟩ := (hg.titled d).named g.key _ h hentry howner
    · exact ⟨hlive, hg.registered d h hlive hhome⟩
    · rw [frameAt_of_over hover p] at hp
      cases hp

/-- What a pass leaves behind that expired the given groups, against the hub at its start. -/
def ExpiredAll (start : Hub σ) (d : DepotId) (timeout : Nat) (stale : List Group) (hub : Hub σ)
    (done : List Doing) (r : Reply) : Prop :=
  ∃ times, times.length = stale.length
    ∧ (hub.depot d).shelf = stale.foldl (fun s g => s.clear g.key) (start.depot d).shelf
    ∧ done = (List.zipWith (fun g time =>
        start.farewell d timeout g time (start.expirer? d g.key)) stale times).flatten
    ∧ r = .passed (.returned (.ok stale.length))

/-- A pass that finds a depot at rest expires what it selects. -/
theorem comes_pass {s : Machine σ} {notes : List Note} {d : DepotId} {timeout delay : Nat}
    (hg : Governed s.hub s.frameAt notes) (ho : s.hub.Orderly)
    (hover : ∀ t ∈ s.threads, t.isOver = true)
    (hreg : ∀ who ∈ (s.hub.depot d).participants, ∃ h, who = .handler h) (hapart : s.hub.Apart d)
    {stale : List Group}
    (hstale : s.hub.arrange ((s.hub.depot d).store.stale timeout (s.hub.clock + delay)) = stale) :
    (Frame.pass d timeout .selecting).Comes (ExpiredAll s.hub d timeout stale)
      ⟨s.threads.length, 0⟩ none (s.hub.elapse delay) [] := by
  have htidy := (hg.sound d).tidy
  have hperm := ho.arrange ((s.hub.depot d).store.stale timeout (s.hub.clock + delay))
  rw [hstale] at hperm
  have hfind : ∀ g ∈ stale, (s.hub.depot d).store.find? g.key = some g := fun g hmem =>
    ((Depot.mem_stale_iff htidy).1 (hperm.mem_iff.1 hmem)).1
  have hopened : stale ≠ [] → d < s.hub.depots.length := by
    intro hne
    by_contra hno
    obtain ⟨g, hmem⟩ := List.exists_mem_of_ne_nil _ hne
    have hempty : s.hub.depot d = .empty none := by
      simp [Hub.depot, List.getElem?_eq_none (Nat.le_of_not_lt hno)]
    have hstored := hfind g hmem
    rw [hempty] at hstored
    cases hstored
  obtain ⟨I, hI₀, hI, hcode⟩ := hapart
  have hmid : stale ≠ [] → s.hub.Midway I d s.hub (s.hub.depot d).shelf := fun hne =>
    ⟨hI₀, fun _ => rfl, fun _ => rfl, rfl, ho.service d, hopened hne, rfl⟩
  have hapt : ∀ who ∈ (s.hub.depot d).participants,
      ∃ h handler, who = .handler h ∧ Participant.Apt I d s.hub h handler := by
    intro who hwho
    obtain ⟨h, rfl⟩ := hreg who hwho
    obtain ⟨handler, hh, hhome⟩ := Option.map_eq_some_iff.1 (ho.participants d h hwho)
    obtain ⟨hprocess, hdiscard⟩ := hcode h handler hwho hh
    exact ⟨h, handler, rfl, hh, hhome, hprocess, hdiscard⟩
  exact Pass.comes_selecting hI rfl (ho.service d) hapt hstale
    (fun hne => (hmid hne).elapse hI _) rfl (fun g hmem => ripe_of_over hg hover (hfind g hmem))
    ((hperm.map _).nodup_iff.2 (Depot.nodup_stale_keys htidy))
    fun hub' times hlen hshelf => ⟨times, hlen, hshelf, rfl, rfl⟩

theorem lawful_rounds (i : Nat) :
    ∀ (k : Nat) (delays : Nat → Nat) (s : Machine σ), s.Lawful (rounds i delays k)
  | 0, _, _ => trivial
  | k + 1, delays, _ => ⟨trivial, trivial, lawful_rounds i k (fun n => delays (n + 1)) _⟩

theorem code?_of_mem_rounds {i : Nat} {mv : Move σ} :
    ∀ {k : Nat} {delays : Nat → Nat}, mv ∈ rounds i delays k → mv.code? = none
  | 0, _, h => by cases h
  | _ + 1, _, h => by
    simp only [rounds, List.mem_cons] at h
    obtain rfl | rfl | h := h
    · rfl
    · rfl
    · exact code?_of_mem_rounds h

/-- Where no code is brought in, the handlers stay as they are. -/
theorem handler?_after {s : Machine σ} (ho : s.Orderly) {moves : List (Move σ)}
    (hl : s.Lawful moves) (hcode : ∀ mv ∈ moves, mv.code? = none) (h : HandlerId) :
    (s.after moves).hub.handler? h = s.hub.handler? h := by
  induction moves generalizing s with
  | nil => rfl
  | cons mv moves ih =>
    obtain ⟨hmv, hrest⟩ := List.forall_mem_cons.1 hcode
    refine (ih (orderly_move ho hl.1) hl.2 hrest).trans ?_
    have hback : ∀ handler, (s.move mv).hub.handler? h = some handler →
        s.hub.handler? h = some handler := fun handler hh =>
      (handler?_move ho mv hh).resolve_right (by simp [hmv])
    rcases hh : s.hub.handler? h with _ | handler
    · rcases hh' : (s.move mv).hub.handler? h with _ | handler'
      · rfl
      · exact absurd (hh.symm.trans (hback _ hh')) (by simp)
    · have hhome := (grows_after ho [mv] ⟨hl.1, trivial⟩).home? (Hub.home?_of_handler? hh)
      obtain ⟨handler', hh', -⟩ := Option.map_eq_some_iff.1 hhome
      change (s.move mv).hub.handler? h = some handler' at hh'
      rw [hh', ← hback _ hh', hh]

/-- In a depot at rest, with nobody but handlers on the register and code behind them that leaves
the depot alone, a pass expires exactly the groups that are idle for long enough when it selects,
in whatever order they come, and takes their lock entries along. Each comes to its owner if that
handler is there, or else to the first one on the register that is, which acts on it once; if there
is none, the pass removes it. All others stay as they are. The books of the pass are faithful and no
handler changes meanwhile, so what acts on a group is the processor or the discard channel that its
expirer has at the start. -/
theorem quiescent_pass_exact (outside : σ) (idOf : Nat → MessageId) (moves : List (Move σ))
    (hl : (initial outside idOf).Lawful moves)
    (he : (initial outside idOf).entitled moves = true) (d : DepotId) (timeout : Nat)
    (hover : ∀ t ∈ ((initial outside idOf).after moves).threads, t.isOver = true)
    (hreg : ∀ who ∈ (((initial outside idOf).after moves).hub.depot d).participants,
      ∃ h, who = .handler h)
    (hapart : ((initial outside idOf).after moves).hub.Apart d) (delays : Nat → Nat) :
    let s := (initial outside idOf).after moves
    let store := (s.hub.depot d).store
    let now := s.hub.clock + delays 0
    ∃ k, let pass := .event (.start (.expire d timeout)) :: rounds s.threads.length delays k
      (s.after pass).reply? s.threads.length
          = some (.passed (.returned (.ok (store.stale timeout now).length)))
        ∧ (∀ key, ((s.after pass).hub.depot d).store.find? key
          = (store.find? key).filter fun g => !g.isIdleFor timeout now)
        ∧ (∀ key, ((s.after pass).hub.depot d).locks.find? key
          = if (store.find? key).any (fun g => g.isIdleFor timeout now) then none
            else (s.hub.depot d).locks.find? key)
        ∧ s.Faithful pass
        ∧ (∀ before rest, pass = before ++ rest → ∀ h,
          (s.after before).hub.handler? h = s.hub.handler? h)
        ∧ ∃ stale times, stale.Perm (store.stale timeout now) ∧ times.length = stale.length
          ∧ deeds (s.history pass) = (List.zipWith (fun g time =>
            s.hub.farewell d timeout g time (s.hub.expirer? d g.key)) stale times).flatten := by
  intro s store now
  have ho := orderly_initial outside idOf
  have hg : Governed s.hub s.frameAt ((initial outside idOf).history moves) :=
    (along_entitled (P := Governed) Governed.advance ho (attended_initial outside idOf)
      (governed_initial outside idOf) moves hl he).1
  have hs : s.Orderly := orderly_after ho moves hl
  have horderly : s.hub.Orderly := hs.hub
  have hperm := horderly.arrange (store.stale timeout now)
  generalize hstale : s.hub.arrange (store.stale timeout now) = stale at hperm
  -- the pass after its start and the first delay
  have hstarted : (⟨s.hub.elapse (delays 0), s.threads ++ [Thread.start (.expire d timeout)]⟩ :
      Machine σ).threads[s.threads.length]? = some ⟨[.pass d timeout .selecting], none⟩ := by
    simp [Thread.start, Activity.frame]
  obtain ⟨k, hub', done', r, ⟨times, hlen, hshelf, rfl, rfl⟩, hafter, hdeeds⟩ :=
    (comes_pass hg horderly hover hreg hapart hstale).run rfl rfl rfl hstarted
      fun n => delays (n + 1)
  have hrun : s.after
      (.event (.start (.expire d timeout)) :: rounds s.threads.length delays (k + 1))
      = ⟨hub', (s.threads ++ [Thread.start (.expire d timeout)]).set s.threads.length
        (ended [] none (.passed (.returned (.ok stale.length))))⟩ := hafter
  have hkey : ∀ key, key ∈ stale.map Group.key
      ↔ (store.find? key).any (fun g => g.isIdleFor timeout now) = true := fun key =>
    (hperm.map Group.key).mem_iff.trans (Depot.key_mem_stale_iff (hg.sound d).tidy key)
  have hlawful : s.Lawful
      (.event (.start (.expire d timeout)) :: rounds s.threads.length delays (k + 1)) :=
    ⟨trivial, lawful_rounds _ _ _ _⟩
  have hcode : ∀ mv : Move σ, mv ∈ .event (.start (.expire d timeout)) ::
      rounds s.threads.length delays (k + 1) → mv.code? = none := fun mv hmv => by
    obtain rfl | hmv := List.mem_cons.1 hmv
    · rfl
    · exact code?_of_mem_rounds hmv
  refine ⟨k + 1, ?_, fun key => ?_, fun key => ?_, faithful hs hlawful,
    fun before rest hpass h => ?_, stale, times, hperm, hlen, hdeeds⟩
  · rw [hrun, ← hperm.length_eq]
    simp [reply?, ended]
  · rw [hrun]
    have hgroup := congrFun (congrArg Shelf.group? hshelf) key
    rw [Shelf.foldl_clear_group?] at hgroup
    refine hgroup.trans ?_
    simp only [hkey key]
    change (if _ then none else store.find? key) = _
    rcases store.find? key with _ | g
    · rfl
    · rcases hidle : g.isIdleFor timeout now with _ | _ <;> simp [Option.filter, hidle]
  · rw [hrun]
    have hlock := congrFun (congrArg Shelf.lock? hshelf) key
    rw [Shelf.foldl_clear_lock?] at hlock
    refine hlock.trans ?_
    simp only [hkey key]
    rfl
  · rw [hpass] at hlawful hcode
    exact handler?_after hs (lawful_append.1 hlawful).1
      (fun mv hmv => hcode mv (List.mem_append_left _ hmv)) h

end Machine

/-! ## Three handlers of one store -/

/-- A channel that takes nothing. -/
def Channel.shut : Channel σ := ⟨fun _ => .done (.error (.rejected "closed"))⟩

/-- A handler that keeps every message under its own id, aggregates what it completes, and fails to
discard anything. -/
def filing : Handler Unit :=
  { gathering with
    correlation := fun m => .returned (some ⟨m.id.text⟩)
    processor := Processor.aggregate
    output := some .sink
    discard := some .shut }

theorem aggregate_sink (g : Group) :
    (∃ result, Processor.aggregate g (.sink : Channel σ) = .done result)
      ∨ Processor.aggregate g (.sink : Channel σ) = .fresh fun _ => .done (.ok ()) := by
  unfold Processor.aggregate
  split_ifs
  · exact .inl ⟨_, rfl⟩
  · exact .inr rfl

theorem discreet_filing (settings : HandlerSettings) :
    ({ filing with settings := settings } : Handler Unit).Discreet where
  process g := by
    change (Processor.aggregate g .sink).Discreet
    obtain ⟨result, heq⟩ | heq := aggregate_sink (σ := Unit) g <;> rw [heq]
    · exact .done _
    · exact .fresh fun _ => .done _
  discard c hc m := by
    cases hc
    exact .done _

/-- The first handler starts a group and is dropped, the third one starts another one, and after a
while the second one starts the last. -/
def restingTurns : List (Event Unit) :=
  .start (.handle 0 (plain "a")) :: (List.replicate 6 (.step 0)
    ++ [.start (.handle 2 (plain "b"))] ++ List.replicate 6 (.step 1)
    ++ [.start (.drop 0)] ++ List.replicate 2 (.step 2)
    ++ [.elapse 5, .start (.handle 1 (plain "c"))] ++ List.replicate 6 (.step 3))

def restingRun : List (Move Unit) :=
  [.openDepot none, .event (.build filing),
    .event (.build { filing with settings := ⟨none, .forceComplete⟩ }), .event (.build filing)]
    ++ restingTurns.map .event

theorem lawful_restingRun : (Machine.initial () fun _ => ⟨""⟩).Lawful restingRun := by
  refine ⟨trivial, ⟨discreet_filing _, Nat.zero_lt_one⟩, ⟨discreet_filing _, Nat.zero_lt_one⟩,
    ⟨discreet_filing _, Nat.zero_lt_one⟩, Machine.lawful_events _ _ ?_⟩
  intro e he handler heq
  subst heq
  simp [restingTurns] at he

def resting : Machine Unit := (Machine.initial () fun _ => ⟨""⟩).after restingRun

/-- The code behind all three handlers makes no calls. -/
theorem apart_resting : resting.hub.Apart 0 := by
  have hsame : ∀ h handler, .handler h ∈ (resting.hub.depot 0).participants →
      resting.hub.handler? h = some handler → handler.output = some .sink
        ∧ handler.processor = Processor.aggregate ∧ handler.discard = some .shut := by
    intro h handler hmem hh
    have hregister : (resting.hub.depot 0).participants
        = [.handler 0, .handler 1, .handler 2] := by decide
    simp only [hregister, List.mem_cons, Participant.handler.injEq, List.not_mem_nil,
      or_false] at hmem
    rcases hmem with rfl | rfl | rfl <;> cases hh <;> exact ⟨rfl, rfl, rfl⟩
  refine Hub.apart_of_local (fun h handler g hmem hh => ?_) fun h handler c m hmem hh hc => ?_
  · obtain ⟨hout, hprocessor, -⟩ := hsame h handler hmem hh
    simp only [Handler.process, hout, hprocessor]
    obtain ⟨result, heq⟩ | heq := aggregate_sink (σ := Unit) g <;> rw [heq]
    · exact ⟨.done _, .done _⟩
    · exact ⟨.fresh fun _ => .done _, .fresh fun _ => .done _⟩
  · rw [(hsame h handler hmem hh).2.2] at hc
    cases hc
    exact ⟨.done _, .done _⟩

def groupA : Group := ⟨⟨"a"⟩, [plain "a"], 0⟩

def groupB : Group := ⟨⟨"b"⟩, [plain "b"], 0⟩

/-- The group of the handler that was dropped comes to the second handler, the first on the register
that is there, which aggregates it; the other stale group comes to the third handler, its owner,
which tries to discard it; the last one stays. -/
theorem resting_expires_two :
    (Machine.initial () fun _ => ⟨""⟩).Lawful restingRun
      ∧ (Machine.initial () fun _ => ⟨""⟩).entitled restingRun = true
      ∧ (∀ t ∈ resting.threads, t.isOver = true)
      ∧ (∀ who ∈ (resting.hub.depot 0).participants, ∃ h, who = .handler h)
      ∧ resting.hub.Apart 0
      ∧ resting.hub.expirer? 0 ⟨"a"⟩ = some 1 ∧ resting.hub.expirer? 0 ⟨"b"⟩ = some 2
      ∧ (∀ time, resting.hub.farewell 0 3 groupA time (some 1)
        = [.completed 1 groupA true, .removed 0 ⟨"a"⟩ (some groupA) time (.offer (some 3))])
      ∧ (∀ time, resting.hub.farewell 0 3 groupB time (some 2)
        = [.discarded 2 groupB true, .sent (plain "b"),
          .removed 0 ⟨"b"⟩ (some groupB) time (.offer (some 3))])
      ∧ ∃ k, let pass := .event (.start (.expire 0 3)) :: rounds 4 (fun _ => 1) k
        (resting.after pass).reply? 4 = some (.passed (.returned (.ok 2)))
          ∧ ((resting.after pass).hub.depot 0).store.find? ⟨"c"⟩ = some ⟨⟨"c"⟩, [plain "c"], 5⟩
          ∧ (∃ stale times, stale.Perm [groupA, groupB] ∧ times.length = stale.length
            ∧ deeds (resting.history pass) = (List.zipWith (fun g time =>
              resting.hub.farewell 0 3 g time (resting.hub.expirer? 0 g.key)) stale times).flatten)
          ∧ ∃ before mv rest p f, pass = before ++ mv :: rest
            ∧ (resting.after (before ++ [mv])).frameAt p = some f
            ∧ f.WorksOn groupA (Processor.aggregate groupA .sink) := by
  have hentitled : (Machine.initial () fun _ => ⟨""⟩).entitled restingRun = true := by decide
  have hover : ∀ t ∈ resting.threads, t.isOver = true := by decide
  have hregister : ∀ who ∈ (resting.hub.depot 0).participants, ∃ h, who = .handler h := by
    have heq : (resting.hub.depot 0).participants
        = [.handler 0, .handler 1, .handler 2] := by decide
    simp [heq]
  have hwho : resting.hub.expirer? 0 ⟨"a"⟩ = some 1 := by decide
  refine ⟨lawful_restingRun, hentitled, hover, hregister, apart_resting, hwho, by decide,
    fun _ => rfl, fun _ => rfl, ?_⟩
  obtain ⟨k, hreply, hgroups, -, hfaithful, hstay, stale, times, hperm, hlen, hdeeds⟩ :=
    Machine.quiescent_pass_exact () (fun _ => ⟨""⟩) restingRun lawful_restingRun hentitled 0 3 hover
      hregister apart_resting fun _ => 1
  refine ⟨k, hreply, hgroups ⟨"c"⟩, ⟨stale, times, hperm, hlen, hdeeds⟩, ?_⟩
  -- the completion is among the deeds of the pass
  have hmem : groupA ∈ stale := hperm.mem_iff.2 List.mem_cons_self
  obtain ⟨i, hi, hga⟩ := List.mem_iff_getElem.1 hmem
  have hcompleted : .completed 1 groupA true ∈ deeds (resting.history
      (.event (.start (.expire 0 3)) :: rounds 4 (fun _ => 1) k)) := by
    refine hdeeds ▸ List.mem_flatten.2 ⟨resting.hub.farewell 0 3 groupA times[i] (some 1),
      List.mem_iff_getElem.2 ⟨i, by simp [hi, hlen], ?_⟩, List.mem_cons_self⟩
    rw [List.getElem_zipWith, hga]
    exact congrArg (resting.hub.farewell 0 3 groupA times[i]) hwho
  obtain ⟨p, hp⟩ := exists_of_mem_deeds hcompleted
  obtain ⟨before, mv, rest, hpass, hnoted⟩ := Machine.exists_of_mem_history hp
  obtain ⟨f, hf, handler, hh, -, hworks⟩ := hfaithful.happens before mv rest hpass p _ hnoted
  have hsecond := (hstay before _ hpass 1).symm.trans hh
  cases hsecond
  exact ⟨before, mv, rest, p, f, hpass, hf, hworks⟩

end Collate
