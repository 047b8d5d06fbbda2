import Collate.Proofs.Conservation

/-!
# What a pass may take

A pass lists the groups that were idle when it selected them, and only tells handlers of the depot
about groups of its list. The time that a group bears is then all that is compared: whoever finds
the stored group with the same time has a group that was idle at the selection. So a removal by
expiry takes a group whose messages are all old enough, and since a later addition would bear a
later time, nothing came in under the key after the selection (`Expired`), however often the key
was completed and started again in between.
-/

namespace Collate

variable {σ : Type}

/-- The pass at a place selected some groups that were idle then, and what was added since then was
not added before. -/
def Chosen (now : Instant) (notes : List Note) (q : Place) (d : DepotId) (timeout : Nat)
    (groups : List Group) : Prop :=
  ∃ before time later, notes = before ++ .did q (.selected d timeout time) :: later
    ∧ .came q ∉ later ∧ time ≤ now
    ∧ (∀ key m t, .put key m t ∈ ledger d later → time ≤ t)
    ∧ ∀ g ∈ groups, g.lastModified + timeout ≤ time

/-- A removal by expiry, as it should be: the messages came in long enough before, and the pass
selected the group after all of them and before anything else came in under the key. -/
structure Expired (before : List Note) (p : Place) (d : DepotId) (g : Group) (time : Instant)
    (timeout : Nat) : Prop where
  members : g.messages = ((ledger d before).arrivals g.key).map Prod.fst
  aged : ∀ a ∈ (ledger d before).arrivals g.key, a.2 + timeout ≤ time
  chosen : ∃ q earlier selection later, (q = p ∨ p.below? = some q)
    ∧ before = earlier ++ .did q (.selected d timeout selection) :: later ∧ .came q ∉ later
    ∧ selection ≤ time ∧ (0 < timeout → ∀ m t, .put g.key m t ∉ ledger d later)

namespace Chosen

variable {now now' : Instant} {notes new : List Note} {q : Place} {d : DepotId} {timeout : Nat}
  {groups : List Group}

theorem later (h : Chosen now notes q d timeout groups) (hc : now ≤ now') (hq : .came q ∉ new)
    (hn : ∀ key m t, .put key m t ∈ ledger d new → t = now) {groups' : List Group}
    (hg : groups' ⊆ groups) : Chosen now' (notes ++ new) q d timeout groups' := by
  obtain ⟨before, time, later, rfl, hcame, hle, hput, hidle⟩ := h
  refine ⟨before, time, later ++ new, by simp, ?_, Nat.le_trans hle hc, ?_,
    fun g hmem => hidle g (hg hmem)⟩
  · simp [hcame, hq]
  · intro key m t hmem
    rw [ledger_append] at hmem
    rcases List.mem_append.1 hmem with hmem | hmem
    · exact hput key m t hmem
    · rw [hn key m t hmem]
      exact hle

/-- A stored group that bears the time of a listed one is one to expire. -/
theorem expired (h : Chosen now notes q d timeout groups) {s : Shelf}
    (hk : Kept now s (ledger d notes)) (ht : s.Tidy) {listed g : Group} (hl : listed ∈ groups)
    (hg : s.group? g.key = some g) (hsame : g.lastModified = listed.lastModified) {p : Place}
    (hp : q = p ∨ p.below? = some q) : Expired notes p d g now timeout := by
  obtain ⟨before, time, later, rfl, hcame, hle, hput, hidle⟩ := h
  have hstored := hk.stored g.key
  rw [hg] at hstored
  have hmembers := Ledger.group?_eq g.key
    (ledger d (before ++ .did q (.selected d timeout time) :: later))
  rw [← hstored, Option.elim_some] at hmembers
  have haged : ∀ a ∈ (ledger d (before ++ .did q (.selected d timeout time) :: later)).arrivals
      g.key, a.2 + timeout ≤ time := by
    intro a ha
    have hlast := Ledger.le_lastModified hk.timed hstored.symm ha
    rw [hsame] at hlast
    exact Nat.le_trans (Nat.add_le_add_right hlast timeout) (hidle listed hl)
  refine ⟨hmembers, fun a ha => Nat.le_trans (haged a ha) hle,
    q, before, time, later, hp, rfl, hcame, hle, fun hpos m t hmem => ?_⟩
  -- an addition after the selection would be in the group, and too young
  have hledger : ledger d (before ++ .did q (.selected d timeout time) :: later)
      = ledger d before ++ ledger d later := by
    rw [ledger_append]
    rfl
  rw [hledger] at hmembers haged
  have hne : (ledger d before ++ ledger d later).arrivals g.key ≠ [] := by
    intro hnil
    rw [hnil] at hmembers
    exact (ht g.key g hg).2 hmembers
  obtain ⟨a, ha, hlate⟩ := Ledger.exists_late_arrival hmem hne
  have hyoung := hput g.key a.1 a.2 hlate
  have hold := haged a ha
  exact absurd (Nat.le_trans hold hyoung) (Nat.not_le.2 (Nat.lt_add_of_pos_right hpos))

end Chosen

namespace Pass

def hasChosen : Pass σ → Bool
  | .selecting => false
  | .failing => false
  | _ => true

/-- The groups that a pass still has on its list, the current one included. -/
def listed : Pass σ → List Group
  | .selecting => []
  | .consulting stale => stale
  | .next t => t.rest
  | .offering t g _ _ => g :: t.rest
  | .waiting t g _ _ _ => g :: t.rest
  | .hooked t g _ _ _ _ => g :: t.rest
  | .claiming t g => g :: t.rest
  | .comparing t g => g :: t.rest
  | .freeing t g _ _ => g :: t.rest
  | .pruning t => t.rest
  | .failing => []

theorem rest_hear (t : Tally) (said : Responses) (who : Participant) (outcome : ExpiryOutcome) :
    (hear t said who outcome).1.rest = t.rest := by
  cases outcome <;> simp only [hear]
  split_ifs <;> rfl

theorem listed_heard (t : Tally) (g : Group) (who : Participant) (left : List Participant)
    (said : Responses) (outcome : ExpiryOutcome) :
    (heard t g who left said outcome : Pass σ).listed = g :: t.rest := by
  simp only [heard, listed, rest_hear]

theorem listed_resume (p : Pass σ) (r : Reply) :
    ((p.resume r).hasChosen = true → p.hasChosen = true) ∧ (p.resume r).listed ⊆ p.listed := by
  cases p <;> simp only [resume]
  case waiting t g who left said =>
    split
    · rw [listed_heard]
      exact ⟨fun _ => rfl, List.Subset.refl _⟩
    · exact ⟨fun _ => rfl, List.nil_subset _⟩
  all_goals exact ⟨fun h => h, List.Subset.refl _⟩

variable {hub hub' : Hub σ} {d : DepotId} {timeout : Nat} {p p' : Pass σ}

/-- A pass selects once, and from then on its list only gets shorter. -/
theorem Goes.listed (hg : Goes hub d timeout p hub' p') (hc : p'.hasChosen = true) :
    (p = .selecting ∧ hub' = hub
        ∧ p' = .consulting (hub.arrange ((hub.depot d).store.stale timeout hub.clock)))
      ∨ p.hasChosen = true ∧ p'.listed ⊆ p.listed := by
  cases hg
  case selected hne ha => exact .inl ⟨rfl, rfl, by rw [ha]⟩
  case broken => cases hc
  case heard => exact .inr ⟨rfl, by rw [listed_heard]; exact List.Subset.refl _⟩
  case takes t g rest hrest => exact .inr ⟨rfl, by simp [Pass.listed, hrest]⟩
  all_goals
    first
    | exact .inr ⟨rfl, List.Subset.refl _⟩
    | exact .inr ⟨rfl, List.subset_cons_self _ _⟩

end Pass

/-- An offer that has read its group again has the group that was selected, by its time. -/
def Offer.Same (stale : Group) (p : Offer σ) : Prop :=
  ∀ g, p.sight = .seen g → g.lastModified = stale.lastModified

theorem Offer.Same.goes {hub hub' : Hub σ} {handler : Handler σ} {h : HandlerId} {stale : Group}
    {p p' : Offer σ} (hg : Goes hub handler h stale p hub' p') (hs : p.Same stale) :
    p'.Same stale := by
  intro g hsight
  cases hg
  case completes hun _ =>
    cases hsight
    exact hun.same
  case discards hun _ _ =>
    cases hsight
    exact hun.same
  case drops hun _ _ =>
    cases hsight
    exact hun.same
  all_goals
    first
    | exact hs g hsight
    | cases hsight

/-- What keeps a call from expiring anything fresh: a pass has only groups on its list that were
idle when it selected them, and an offer acts for the pass right below it. -/
def Frame.Aims (hub : Hub σ) (at_ : Place → Option (Frame σ)) (notes : List Note) (p : Place) :
    Frame σ → Prop
  | .pass d timeout at' => at'.hasChosen = true → Chosen hub.clock notes p d timeout at'.listed
  | .offer h stale at' => at'.Same stale ∧ ∃ q d timeout t who left said, p = q.above
      ∧ at_ q = some (.pass d timeout (.waiting t stale who left said)) ∧ hub.home? h = some d
  | _ => True

namespace Advance

variable {hub hub' : Hub σ} {at_ at' : Place → Option (Frame σ)} {notes new : List Note}

/-- A pass that waits for an offer goes on only when that offer is over. -/
theorem waiting (ha : Advance hub at_ hub' at' new) {q : Place} {d : DepotId} {timeout : Nat}
    {t : Tally} {g : Group} {who : Participant} {left : List Participant} {said : Responses}
    (hq : at_ q = some (.pass d timeout (.waiting t g who left said))) :
    at' q = at_ q ∨ at' q.above = none := by
  cases ha with
  | aside h => exact .inl rfl
  | @starts p a hp =>
    refine .inl (Function.update_of_ne ?_ _ _)
    rintro rfl
    rw [hp] at hq
    cases hq
  | @goes p f hub' f' hp hs =>
    refine .inl (Function.update_of_ne ?_ _ _)
    rintro rfl
    cases hp.symm.trans hq
    cases hs
  | @calls p f hub' f' inner hp hs hab =>
    have hne : q ≠ p := by
      rintro rfl
      cases hp.symm.trans hq
      cases hs
    have hne' : q ≠ p.above := by
      rintro rfl
      rw [hab] at hq
      cases hq
    exact .inl (by rw [Function.update_of_ne hne', Function.update_of_ne hne])
  | @ends p f hub' r hp hs =>
    refine .inl (Function.update_of_ne ?_ _ _)
    rintro rfl
    cases hp.symm.trans hq
    cases hs
  | @returns p f g' hub' r hp hs hg =>
    by_cases heq : q = p
    · subst heq
      exact .inr (by rw [Function.update_of_ne q.above_ne, Function.update_self])
    · have hne : q ≠ p.above := by
        rintro rfl
        cases hp.symm.trans hq
        cases hs
      exact .inl (by rw [Function.update_of_ne heq, Function.update_of_ne hne])

theorem came (ha : Advance hub at_ hub' at' new) {q : Place} (h : .came q ∈ new) :
    at_ q = none := by
  cases ha with
  | starts a hp => cases List.mem_singleton.1 h; exact hp
  | calls hp hs hab => cases List.mem_singleton.1 h; exact hab
  | goes hp hs => simp at h
  | _ => cases h

theorem time_of_put (ha : Advance hub at_ hub' at' new) (ho : hub.Orderly)
    (hf : ∀ p f, at_ p = some f → f.Orderly hub) {d : DepotId} {key : Key} {m : Message}
    {t : Instant} (h : .put key m t ∈ ledger d new) : t = hub.clock := by
  obtain ⟨p, e, x, hdeal, -, hnew⟩ := ha.deal ho hf d
  rw [ledger, hnew, Option.mem_toList] at h
  rw [h] at hdeal
  generalize grips hub at_ d p = y, (hub'.depot d).shelf = s' at hdeal
  cases hdeal
  rfl

end Advance

namespace Frame.Aims

variable {hub hub' : Hub σ} {at_ at' : Place → Option (Frame σ)} {notes new : List Note}
  {p : Place} {f : Frame σ}

/-- An offer stays above its pass. -/
theorem above_pass (ha : Advance hub at_ hub' at' new) (ho : hub.Orderly)
    (hf : ∀ p f, at_ p = some f → f.Orderly hub) (hp : at' p = some f) {h : HandlerId}
    {stale : Group}
    (hq : ∃ q d timeout t who left said, p = q.above
      ∧ at_ q = some (.pass d timeout (.waiting t stale who left said)) ∧ hub.home? h = some d) :
    ∃ q d timeout t who left said, p = q.above
      ∧ at' q = some (.pass d timeout (.waiting t stale who left said))
      ∧ hub'.home? h = some d := by
  obtain ⟨q, d, timeout, t, who, left, said, rfl, hq, hhome⟩ := hq
  refine ⟨q, d, timeout, t, who, left, said, rfl, ?_, (ha.grows ho hf).home? hhome⟩
  rcases ha.waiting hq with heq | hnone
  · rw [heq, hq]
  · rw [hp] at hnone
    cases hnone

theorem stays (ha : Advance hub at_ hub' at' new) (ho : hub.Orderly)
    (hf : ∀ p f, at_ p = some f → f.Orderly hub) (hold : at_ p ≠ none) (hp : at' p = some f)
    (h : f.Aims hub at_ notes p) : f.Aims hub' at' (notes ++ new) p := by
  cases f with
  | handling h' at'' => trivial
  | offer h' stale at'' => exact ⟨h.1, above_pass ha ho hf hp h.2⟩
  | pass d timeout at'' =>
    intro hc
    exact (h hc).later (ha.clock_le ho hf) (fun hcame => hold (ha.came hcame))
      (fun key m t hput => ha.time_of_put ho hf hput) (List.Subset.refl _)
  | drop h' at'' => trivial

theorem goes {f' : Frame σ} (ha : Advance hub at_ hub' at' new) (ho : hub.Orderly)
    (hf : ∀ p f, at_ p = some f → f.Orderly hub)
    (hk : ∀ d, Kept hub.clock (hub.depot d).shelf (ledger d notes)) (hold : at_ p = some f)
    (hp : at' p = some f') (hs : f.step hub = .goes hub' f')
    (hnew : new = ((f.doing hub (p.below?.bind at_) f').map (Note.did p)).toList)
    (h : f.Aims hub at_ notes p) : f'.Aims hub' at' (notes ++ new) p := by
  cases f with
  | handling h' at'' =>
    obtain ⟨handler, hh⟩ := Handling.handler_of_step hs
    obtain ⟨p', rfl, hg⟩ := Handling.goes_of_step hh hs
    trivial
  | offer h' stale at'' =>
    obtain ⟨handler, hh⟩ := Offer.handler_of_step hs
    obtain ⟨p', rfl, hg⟩ := Offer.goes_of_step hh hs
    exact ⟨h.1.goes hg, above_pass ha ho hf hp h.2⟩
  | pass d timeout at'' =>
    obtain ⟨p', rfl, hg⟩ := Pass.goes_of_step hs
    intro hc
    rcases hg.listed hc with ⟨rfl, rfl, rfl⟩ | ⟨hchosen, hsub⟩
    · -- the selection itself
      rw [hnew]
      refine ⟨notes, hub'.clock, [], rfl, by simp, Nat.le_refl _, ?_, fun g hmem => ?_⟩
      · intro key m t hmem
        cases hmem
      obtain ⟨hidle, key, hkey⟩ := Store.mem_stale ((ho.arrange _).mem_iff.1 hmem)
      have hstored := (hk d).stored key
      rw [show (hub'.depot d).shelf.group? key = some g from hkey] at hstored
      have hle := Ledger.lastModified_le (hk d).timed hstored.symm
      rw [Nat.add_comm]
      exact Nat.add_le_of_le_sub hle hidle
    · exact (h hchosen).later (ha.clock_le ho hf)
        (fun hcame => by rw [ha.came hcame] at hold; cases hold)
        (fun key m t hput => ha.time_of_put ho hf hput) hsub
  | drop h' at'' =>
    obtain ⟨rfl, rfl⟩ := Drop.goes_of_step hs
    trivial

theorem caller {f' inner : Frame σ} (hs : f.step hub = .calls hub' f' inner)
    (h : f.Aims hub at_ notes p) : f'.Aims hub at_ notes p := by
  cases f with
  | handling h' at'' =>
    obtain ⟨rfl, rfl, key, g, work, -, hw⟩ := Handling.calls_of_step hs
    exact h
  | offer h' stale at'' =>
    obtain ⟨rfl, rfl, -⟩ := Offer.calls_of_step hs
    exact h
  | pass d timeout at'' =>
    obtain ⟨rfl, ⟨t, g, h', left, said, rfl, rfl, rfl⟩
      | ⟨t, g, who, left, said, work, -, rfl, hw⟩⟩ := Pass.calls_of_step hs
    · exact fun _ => h rfl
    · exact h
  | drop h' at'' => exact (Drop.calls_of_step hs).elim

/-- A new call of a pass is an offer of the group that the pass waits for. -/
theorem called {f' inner : Frame σ} (hs : f.step hub = .calls hub' f' inner)
    (hf : f.Orderly hub) (hp : at' p = some f') (hgrows : hub.Grows hub') :
    inner.Aims hub' at' (notes ++ new) p.above := by
  have hscript : ∀ {α : Type} {s : Script σ α}, s.step hub = .calls inner →
      inner.Aims hub' at' (notes ++ new) p.above := by
    intro α s hcall
    rcases Script.calls_of_step hcall with ⟨id, m, rfl⟩ | ⟨d, timeout, rfl⟩
    · trivial
    · intro hc
      cases hc
  cases f with
  | handling h' at'' =>
    obtain ⟨-, -, key, g, work, -, hw⟩ := Handling.calls_of_step hs
    exact hscript hw
  | offer h' stale at'' =>
    obtain ⟨-, -, ⟨g, m, left, work, -, hw⟩ | ⟨g, work, -, hw⟩⟩ := Offer.calls_of_step hs <;>
      exact hscript hw
  | pass d timeout at'' =>
    obtain ⟨-, ⟨t, g, h', left, said, rfl, rfl, rfl⟩ | ⟨t, g, who, left, said, work, -, -, hw⟩⟩ :=
      Pass.calls_of_step hs
    · have hhome := hgrows.home? (hf.2.2 h' List.mem_cons_self)
      refine ⟨?_, p, d, timeout, t, .handler h', left, said, rfl, hp, hhome⟩
      intro g hg
      cases hg
    · exact hscript hw
  | drop h' at'' => exact (Drop.calls_of_step hs).elim

theorem resume (h : f.Aims hub at_ notes p) (r : Reply) : (f.resume r).Aims hub at_ notes p := by
  cases f with
  | handling h' at'' => trivial
  | offer h' stale at'' =>
    refine ⟨fun g hg => h.1 g ?_, h.2⟩
    cases at'' <;> exact hg
  | pass d timeout at'' =>
    intro hc
    obtain ⟨before, time, later, hnotes, hcame, hle, hput, hidle⟩ :=
      h ((Pass.listed_resume at'' r).1 hc)
    exact ⟨before, time, later, hnotes, hcame, hle, hput,
      fun g hg => hidle g ((Pass.listed_resume at'' r).2 hg)⟩
  | drop h' at'' => trivial

/-- Whatever happens, no call comes to aim at a fresh group. -/
theorem advance (ha : Advance hub at_ hub' at' new) (ho : hub.Orderly)
    (hf : ∀ p f, at_ p = some f → f.Orderly hub)
    (hk : ∀ d, Kept hub.clock (hub.depot d).shelf (ledger d notes))
    (h : ∀ p f, at_ p = some f → f.Aims hub at_ notes p) :
    ∀ p f, at' p = some f → f.Aims hub' at' (notes ++ new) p := by
  intro q x hq
  have hstays : at_ q = some x → x.Aims hub' at' (notes ++ new) q := fun hold =>
    stays ha ho hf (by simp [hold]) hq (h q x hold)
  have ha' := ha
  cases ha with
  | aside => exact hstays hq
  | @starts p a hp =>
    have hat := hq
    rw [Function.update_apply] at hat
    split_ifs at hat
    · cases hat
      cases a with
      | handle h' m => trivial
      | expire d timeout =>
        intro hc
        cases hc
      | drop h' => trivial
    · exact hstays hat
  | @goes p f hub' f' hp hs =>
    have hat := hq
    rw [Function.update_apply] at hat
    split_ifs at hat with heq
    · subst heq
      cases hat
      exact goes ha' ho hf hk hp hq hs rfl (h q f hp)
    · exact hstays hat
  | @calls p f hub' f' inner hp hs hab =>
    have hat := hq
    rw [Function.update_apply, Function.update_apply] at hat
    split_ifs at hat with h₁ h₂
    · subst h₁
      cases hat
      refine called hs (hf p f hp) ?_ (ha'.grows ho hf)
      rw [Function.update_of_ne (Ne.symm p.above_ne), Function.update_self]
    · subst h₂
      cases hat
      exact stays ha' ho hf (by simp [hp]) hq (caller hs (h q f hp))
    · exact hstays hat
  | @ends p f hub' r hp hs =>
    have hat := hq
    rw [Function.update_apply] at hat
    split_ifs at hat
    exact hstays hat
  | @returns p f g hub' r hp hs hg =>
    have hat := hq
    rw [Function.update_apply, Function.update_apply] at hat
    split_ifs at hat with h₁
    · subst h₁
      cases hat
      exact stays ha' ho hf (by simp [hg]) hq ((h q g hg).resume r)
    · exact hstays hat

end Frame.Aims

/-! ## Removals by expiry -/

theorem Frame.removed_of_doing {hub hub' : Hub σ} {f f' : Frame σ} {under : Option (Frame σ)}
    (hs : f.step hub = .goes hub' f') {d : DepotId} {key : Key} {g? : Option Group} {t : Instant}
    {by_ : Remover} (hd : f.doing hub under f' = some (.removed d key g? t by_))
    (hby : by_ ≠ .handling) (ho : hub.Orderly) :
    t = hub.clock ∧ g? = (hub.depot d).shelf.group? key
      ∧ ((∃ h stale g handler, f = .offer h stale (.removing g) ∧ hub.handler? h = some handler
          ∧ d = handler.depot ∧ key = stale.key ∧ by_ = .offer (under.bind timeout?))
        ∨ ∃ timeout tally g, f = .pass d timeout (.comparing tally g) ∧ key = g.key
          ∧ (hub.depot d).store.isUnchanged g = true ∧ by_ = .pass timeout) := by
  cases f with
  | handling h p =>
    obtain ⟨handler, hh⟩ := Handling.handler_of_step hs
    obtain ⟨p', rfl, hg⟩ := Handling.goes_of_step hh hs
    simp only [doing, hh, Option.bind_some] at hd
    cases hg
    case removed hr =>
      simp only [Handling.doing, Depot.removal, hr, Option.some.injEq, Doing.removed.injEq] at hd
      exact absurd hd.2.2.2.2.symm hby
    case unremoved hr => simp [Handling.doing, Depot.removal, hr] at hd
    all_goals cases hd
  | offer h stale p =>
    obtain ⟨handler, hh⟩ := Offer.handler_of_step hs
    obtain ⟨p', rfl, hg⟩ := Offer.goes_of_step hh hs
    simp only [doing, hh, Option.bind_some] at hd
    cases hg
    case removed g depot gone hr =>
      simp only [Offer.doing, Depot.removal, hr, Option.some.injEq, Doing.removed.injEq] at hd
      obtain ⟨rfl, rfl, rfl, rfl, rfl⟩ := hd
      rw [(ho.service _).remove] at hr
      cases hr
      exact ⟨rfl, rfl, .inl ⟨h, stale, g, handler, rfl, hh, rfl, rfl, rfl⟩⟩
    case unremoved hr => simp [Offer.doing, Depot.removal, hr] at hd
    all_goals cases hd
  | pass d' timeout p =>
    obtain ⟨p', rfl, hg⟩ := Pass.goes_of_step hs
    simp only [doing] at hd
    cases hg
    case swept tally g hu =>
      cases hd
      exact ⟨rfl, rfl, .inr ⟨timeout, tally, g, rfl, rfl, hu, rfl⟩⟩
    all_goals cases hd
  | drop h p =>
    obtain ⟨rfl, rfl⟩ := Drop.goes_of_step hs
    cases hd

/-- A removal by a pass or by an offer of a pass, which dealt with just that group before. -/
def DulyExpired (before : List Note) (p : Place) (d : DepotId) (key : Key) (g? : Option Group)
    (t : Instant) (by_ : Remover) : Prop :=
  ∃ timeout g, g? = some g ∧ g.key = key ∧ Expired before p d g t timeout
    ∧ (by_ = .pass timeout ∨ by_ = .offer (some timeout)
      ∧ ∃ h dealing older, Dealing h g dealing ∧ calls p before = dealing :: older)

theorem Frame.Aims.duly {hub hub' : Hub σ} {at_ : Place → Option (Frame σ)} {notes : List Note}
    {p : Place} {f f' : Frame σ} (ho : hub.Orderly)
    (hsound : ∀ d, Sound (hub.depot d).shelf (grips hub at_ d))
    (hk : ∀ d, Kept hub.clock (hub.depot d).shelf (ledger d notes))
    (htold : ∀ p, Told hub (at_ p) (calls p notes))
    (haims : ∀ p f, at_ p = some f → f.Aims hub at_ notes p) (hp : at_ p = some f)
    (hs : f.step hub = .goes hub' f') {d : DepotId} {key : Key} {g? : Option Group} {t : Instant}
    {by_ : Remover}
    (hd : f.doing hub (p.below?.bind at_) f' = some (.removed d key g? t by_))
    (hby : by_ ≠ .handling) : DulyExpired notes p d key g? t by_ := by
  have hright := Sound.right hsound hp
  obtain ⟨rfl, rfl, ⟨h, stale, g, handler, rfl, hh, rfl, rfl, rfl⟩
    | ⟨timeout, tally, g, rfl, rfl, hu, rfl⟩⟩ := Frame.removed_of_doing hs hd hby ho
  · obtain ⟨hsame, q, d', timeout, t, who, left, said, rfl, hq, hhome⟩ := haims p _ hp
    obtain ⟨dealing, older, hcalls, ⟨hkey, hdealing⟩, -⟩ := (hp ▸ htold q.above).newest
    cases (Hub.home?_of_handler? hh).symm.trans hhome
    -- the stored group is the one that was dealt with
    have hg : (hub.depot handler.depot).shelf.group? stale.key = some g := by
      refine hright.fits handler.depot stale.key (.seen g) ?_
      rw [Frame.grip_offer, if_pos hhome]
      rfl
    refine ⟨timeout, g, hg, hkey, ?_, .inr ⟨?_, h, dealing, older, hdealing, hcalls⟩⟩
    · exact (haims q _ hq rfl).expired (hk _) (hright.tidy _) List.mem_cons_self (hkey ▸ hg)
        (hsame g rfl) (.inr (Place.below?_above q))
    · simp [hq, Frame.timeout?]
  · obtain ⟨current, hcurrent, hsame⟩ := Store.isUnchanged_iff.1 hu
    have hg : (hub.depot d).shelf.group? g.key = some current := hcurrent
    have hkey : current.key = g.key := (hright.tidy d _ _ hg).1
    refine ⟨timeout, current, hg, hkey, ?_, .inl rfl⟩
    exact (haims p _ hp rfl).expired (hk d) (hright.tidy d) List.mem_cons_self (hkey ▸ hg) hsame
      (.inl rfl)

theorem Advance.new_cases {hub hub' : Hub σ} {at_ at' : Place → Option (Frame σ)}
    {new : List Note} (ha : Advance hub at_ hub' at' new) :
    new = [] ∨ ∃ note, new = [note] ∧ ∀ p x, note = .did p x →
      ∃ f f' hub'', at_ p = some f ∧ f.step hub = .goes hub'' f'
        ∧ f.doing hub (p.below?.bind at_) f' = some x := by
  cases ha with
  | starts a hp => exact .inr ⟨_, rfl, fun p x h => by cases h⟩
  | calls hp hs hab => exact .inr ⟨_, rfl, fun p x h => by cases h⟩
  | @goes p f hub' f' hp hs =>
    rcases hx : f.doing hub (p.below?.bind at_) f' with _ | x
    · exact .inl rfl
    · refine .inr ⟨_, rfl, fun q y h => ?_⟩
      cases h
      exact ⟨f, f', hub', hp, hs, hx⟩
  | _ => exact .inl rfl

/-- All that is kept up along a run so that nothing fresh expires. -/
structure Vigilant (hub : Hub σ) (at_ : Place → Option (Frame σ)) (notes : List Note) : Prop where
  sound : ∀ d, Sound (hub.depot d).shelf (grips hub at_ d)
  kept : ∀ d, Kept hub.clock (hub.depot d).shelf (ledger d notes)
  told : ∀ p, Told hub (at_ p) (calls p notes)
  aims : ∀ p f, at_ p = some f → f.Aims hub at_ notes p
  duly : ∀ before p d key g? t by_ rest,
    notes = before ++ .did p (.removed d key g? t by_) :: rest →
    by_ ≠ .handling → DulyExpired before p d key g? t by_

namespace Vigilant

theorem start (outside : σ) (idOf : Nat → MessageId) :
    Vigilant (Machine.initial outside idOf).hub (Machine.initial outside idOf).frameAt [] where
  sound := sound_initial outside idOf
  kept d := .start _ (Machine.bare_initial outside idOf d)
  told p c hc := by cases hc
  aims p f hp := by cases hp
  duly before p d key g? t by_ rest h := by simp at h

theorem advance {hub hub' : Hub σ} {at_ at' : Place → Option (Frame σ)} {notes new : List Note}
    (ho : hub.Orderly) (hf : ∀ p f, at_ p = some f → f.Orderly hub)
    (ha : Advance hub at_ hub' at' new) (h : Vigilant hub at_ notes) :
    Vigilant hub' at' (notes ++ new) where
  sound d := ha.sound ho hf d (h.sound d)
  kept d := ha.kept ho hf (h.kept d)
  told := Told.advance ha ho hf h.sound h.told
  aims := Frame.Aims.advance ha ho hf h.kept h.aims
  duly before p d key g? t by_ rest hnotes hby := by
    rcases ha.new_cases with rfl | ⟨note, rfl, hnote⟩
    · rw [List.append_nil] at hnotes
      exact h.duly before p d key g? t by_ rest hnotes hby
    · rcases snoc_eq_append_cons hnotes with ⟨rfl, hlast⟩ | ⟨rest', hearlier⟩
      · obtain ⟨f, f', hub'', hp, hs, hd⟩ := hnote p _ hlast.symm
        exact Frame.Aims.duly ho h.sound h.kept h.told h.aims hp hs hd hby
      · exact h.duly before p d key g? t by_ rest' hearlier hby

end Vigilant

namespace Machine

/-- In every lawful run, whatever expiry removes was idle for the timeout of the pass since before
that pass selected its groups, and the group that was completed or discarded is the one removed. -/
theorem expiry_spares_fresh (outside : σ) (idOf : Nat → MessageId) (moves : List (Move σ))
    (hl : (initial outside idOf).Lawful moves) {before rest : List Note} {p : Place} {d : DepotId}
    {key : Key} {g? : Option Group} {t : Instant} {by_ : Remover}
    (hn : (initial outside idOf).history moves
      = before ++ .did p (.removed d key g? t by_) :: rest) (hby : by_ ≠ .handling) :
    DulyExpired before p d key g? t by_ :=
  (along_run (P := Vigilant) Vigilant.advance (orderly_initial outside idOf)
    (Vigilant.start outside idOf) moves hl).duly before p d key g? t by_ rest hn hby

end Machine

/-! ## A lone message that expires -/

/-- A pairing handler with an output and a discard channel. -/
def parting : Handler Unit := { pairing with output := some .sink, discard := some .sink }

theorem discreet_parting : parting.Discreet where
  process g := .done _
  discard c hc m := by
    cases hc
    exact .done _

/-- A message waits for its pair for five moments, and then a pass takes what is idle for three. -/
def loneTurns : List (Event Unit) :=
  .start (.handle 0 (plain "first")) :: (List.replicate 6 (.step 0)
    ++ [.elapse 5, .start (.expire 0 3)] ++ List.replicate 12 (.step 1))

def loneRun : List (Move Unit) :=
  .openDepot none :: .event (.build parting) :: loneTurns.map .event

theorem lawful_loneRun : (Machine.initial () fun _ => ⟨""⟩).Lawful loneRun := by
  refine ⟨trivial, ⟨discreet_parting, Nat.zero_lt_one⟩, Machine.lawful_events _ _ ?_⟩
  intro e he handler
  simp only [loneTurns, List.mem_cons, List.mem_append, List.mem_replicate, List.not_mem_nil,
    or_false] at he
  rcases he with rfl | (⟨-, rfl⟩ | rfl | rfl) | ⟨-, rfl⟩ <;> simp

def loneGroup : Group := ⟨⟨"pair"⟩, [plain "first"], 0⟩

/-- The message is sent to the discard channel before its group is removed. -/
theorem lone_expires :
    (Machine.initial () fun _ => ⟨""⟩).Lawful loneRun
      ∧ calls ⟨1, 1⟩ (((Machine.initial () fun _ => ⟨""⟩).history loneRun).take 8)
        = [[.discarded 0 loneGroup true, .sent (plain "first")]]
      ∧ DulyExpired (((Machine.initial () fun _ => ⟨""⟩).history loneRun).take 8) ⟨1, 1⟩ 0 ⟨"pair"⟩
        (some loneGroup) 5 (.offer (some 3)) := by
  have hhistory : (Machine.initial () fun _ => ⟨""⟩).history loneRun
      = ((Machine.initial () fun _ => ⟨""⟩).history loneRun).take 8
        ++ .did ⟨1, 1⟩ (.removed 0 ⟨"pair"⟩ (some loneGroup) 5 (.offer (some 3))) :: [] := rfl
  exact ⟨lawful_loneRun, rfl,
    Machine.expiry_spares_fresh () (fun _ => ⟨""⟩) loneRun lawful_loneRun hhistory (by simp)⟩

end Collate
