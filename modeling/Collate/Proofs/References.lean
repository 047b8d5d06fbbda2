import Collate.Proofs.Grips

/-!
# Who refers to a handler

A handler is there as long as somebody refers to it: whoever has it, and each call of it that is
under way. So a run in which handlers are used as they may be (`Machine.entitled`) brings messages
only to handlers that are there, and drops no reference that a call under way relies on. In such a
run the calls never outnumber the references (`Attended.counted`), a handler that is gone stays
gone (`Tends.gone`), only such a handler loses its locks (`Attended.disowned`), and a handler leaves
the register of its depot only when a pass found it gone (`Tends.stays`).
-/

namespace Collate

variable {σ : Type}

namespace Hub

def references (hub : Hub σ) (h : HandlerId) : Nat :=
  ((hub.member? h).map Member.references).getD 0

/-- A handler that was there and to which nobody refers any more. -/
def Gone (hub : Hub σ) (h : HandlerId) : Prop :=
  (hub.handler? h).isSome = true ∧ hub.references h = 0

variable {hub hub' : Hub σ}

theorem isLive_iff {h : HandlerId} : hub.isLive h = true ↔ 0 < hub.references h := by
  unfold isLive references
  rcases hub.member? h with _ | m <;> simp

theorem isLive_eq_false_iff {h : HandlerId} : hub.isLive h = false ↔ hub.references h = 0 := by
  rw [← Bool.not_eq_true, isLive_iff]
  omega

theorem Gone.isLive {h : HandlerId} (hg : hub.Gone h) : hub.isLive h = false :=
  isLive_eq_false_iff.2 hg.2

theorem isSome_of_references {h : HandlerId} (hr : 0 < hub.references h) :
    (hub.handler? h).isSome = true := by
  unfold references at hr
  unfold handler?
  rcases hm : hub.member? h with _ | m
  · simp [hm] at hr
  · rfl

theorem references_congr (hm : hub'.members = hub.members) (h : HandlerId) :
    hub'.references h = hub.references h := by
  simp only [references, member?, hm]

theorem references_refer (hub : Hub σ) {h : HandlerId} (hh : (hub.handler? h).isSome = true)
    (other : HandlerId) :
    (hub.refer h).references other = hub.references other + if h = other then 1 else 0 := by
  simp only [references, member?, refer, List.getElem?_modify]
  simp only [handler?, member?, Option.isSome_map] at hh
  obtain ⟨m, hm⟩ := Option.isSome_iff_exists.1 hh
  split_ifs with he
  · subst he
    simp [hm]
  · simp

theorem references_unrefer (hub : Hub σ) (h other : HandlerId) :
    (hub.unrefer h).references other = hub.references other - if h = other then 1 else 0 := by
  simp only [references, member?, unrefer, List.getElem?_modify]
  split_ifs with he
  · rcases hub.members[other]? <;> simp
  · simp

theorem references_disown (hub : Hub σ) (h other : HandlerId) :
    (hub.disown h).references other = hub.references other := by
  unfold disown
  split <;> rfl

theorem references_setDepot (hub : Hub σ) (d : DepotId) (depot : Depot) (h : HandlerId) :
    (hub.setDepot d depot).references h = hub.references h := rfl

theorem participants_setDepot (hub : Hub σ) {d : DepotId} (depot : Depot) (other : DepotId)
    (hp : depot.participants = (hub.depot d).participants) :
    ((hub.setDepot d depot).depot other).participants = (hub.depot other).participants := by
  by_cases hd : d = other
  · subst hd
    rcases Nat.lt_or_ge d hub.depots.length with hlt | hge
    · rw [depot_setDepot_self hub _ hlt, hp]
    · rw [setDepot_of_le _ hge]
  · rw [depot_setDepot_ne hub _ hd]

/-- Who joins a register comes to those that are on it. -/
theorem participants_join (hub : Hub σ) (d other : DepotId) (p : Participant) :
    let joined := hub.setDepot d
      { hub.depot d with participants := (hub.depot d).participants ++ [p] }
    (hub.depot other).participants ⊆ (joined.depot other).participants
      ∧ (d < hub.depots.length → p ∈ (joined.depot d).participants) := by
  refine ⟨fun who hw => ?_, fun hd => ?_⟩
  · by_cases heq : d = other
    · subst heq
      rcases Nat.lt_or_ge d hub.depots.length with hlt | hge
      · rw [depot_setDepot_self _ _ hlt]
        exact List.mem_append_left _ hw
      · rw [setDepot_of_le _ hge]
        exact hw
    · rw [depot_setDepot_ne _ _ heq]
      exact hw
  · rw [depot_setDepot_self _ _ hd]
    exact List.mem_append_right _ List.mem_cons_self

theorem build_orderly {handler : Handler σ}
    (ho : ({ hub with members := hub.members ++ [⟨handler, 1⟩] } : Hub σ).Orderly) :
    let joined : Hub σ := { hub with members := hub.members ++ [⟨handler, 1⟩] }
    (hub.build handler).1 = joined.setDepot handler.depot { joined.depot handler.depot with
      participants := (joined.depot handler.depot).participants
        ++ [.handler hub.members.length] } := by
  simp only [build]
  rw [register_orderly ho]

theorem references_append (hub : Hub σ) (m : Member σ) (h : HandlerId) :
    ({ hub with members := hub.members ++ [m] } : Hub σ).references h
      = if h = hub.members.length then m.references else hub.references h := by
  simp only [references, member?, getElem?_snoc]
  split_ifs <;> rfl

theorem references_reform (hub : Hub σ) (h other : HandlerId) (code : Handler σ) :
    ({ hub with members := hub.members.modify h fun m => { m with handler := code } } :
      Hub σ).references other = hub.references other := by
  simp only [references, member?, List.getElem?_modify]
  rcases hub.members[other]? with _ | m <;> by_cases he : h = other <;> simp [he]

theorem references_length (hub : Hub σ) : hub.references hub.members.length = 0 := by
  simp [references, member?]

end Hub

/-- Whether a handling has arrived at its handler and not left it. -/
def Handling.refers : Handling σ → Bool
  | .arriving _ => false
  | .disowning _ => false
  | _ => true

def Offer.refers : Offer σ → Bool
  | .meeting => false
  | .disowning _ => false
  | _ => true

namespace Frame

/-- Whether a call under way refers to a handler. -/
def refers (h : HandlerId) : Frame σ → Bool
  | .handling h' p => h' == h && p.refers
  | .offer h' _ p => h' == h && p.refers
  | _ => false

/-- Whether a message is about to come to a handler. -/
def arrivesAt (h : HandlerId) : Frame σ → Bool
  | .handling h' (.arriving _) => h' == h
  | _ => false

/-- Whether a reference to a handler is about to be dropped. -/
def letsGo (h : HandlerId) : Frame σ → Bool
  | .drop h' .letting => h' == h
  | _ => false

/-- Whether a handler that is gone is about to lose its locks. -/
def disowns (h : HandlerId) : Frame σ → Bool
  | .handling h' (.disowning _) => h' == h
  | .offer h' _ (.disowning _) => h' == h
  | .drop h' .disowning => h' == h
  | _ => false

end Frame

namespace Machine

def frames (s : Machine σ) : List (Frame σ) := s.threads.flatMap Thread.stack

/-- How many calls under way refer to a handler. -/
def callers (s : Machine σ) (h : HandlerId) : Nat := s.frames.countP (Frame.refers h)

end Machine

namespace Machine

/-- Whether a call may do its next step: a message comes to a handler that is there, and a
reference that is dropped is none that a call under way relies on. -/
def allows (s : Machine σ) : Frame σ → Bool
  | .handling h (.arriving _) => s.hub.isLive h
  | .drop h .letting => s.callers h < s.hub.references h
  | _ => true

theorem live_of_allows {s : Machine σ} {f : Frame σ} (ha : s.allows f = true) {h : HandlerId}
    (hf : f.arrivesAt h = true) : s.hub.isLive h = true := by
  cases f with
  | handling h' p =>
    cases p <;> simp only [Frame.arrivesAt, beq_iff_eq, Bool.false_eq_true] at hf
    exact hf ▸ ha
  | _ => cases hf

theorem spare_of_allows {s : Machine σ} {f : Frame σ} (ha : s.allows f = true) {h : HandlerId}
    (hf : f.letsGo h = true) : s.callers h < s.hub.references h := by
  cases f with
  | drop h' p =>
    cases p <;> simp only [Frame.letsGo, beq_iff_eq, Bool.false_eq_true] at hf
    exact hf ▸ of_decide_eq_true ha
  | _ => cases hf

end Machine

/-- A move by somebody who may make it. -/
def Move.entitled (s : Machine σ) : Move σ → Bool
  | .event (.step i) => ((s.threads[i]?).bind fun t => t.stack.head?).all s.allows
  | _ => true

/-- Whether in a run handlers are used by those who refer to them. -/
def Machine.entitled : Machine σ → List (Move σ) → Bool
  | _, [] => true
  | s, mv :: moves => mv.entitled s && (s.move mv).entitled moves

/-! ## What a step does with references -/

namespace Handling

variable {hub hub' : Hub σ} {handler : Handler σ} {h : HandlerId} {p p' : Handling σ}

theorem Goes.references (hg : Goes hub handler h p hub' p')
    (hh : hub.handler? h = some handler) (hp : p.Orderly hub h)
    (hused : p.refers = true → 0 < hub.references h) (other : HandlerId) :
    hub'.references other + (if h = other then p.refers.toNat else 0)
      = hub.references other + if h = other then p'.refers.toNat else 0 := by
  have hsome : (hub.handler? h).isSome = true := by rw [hh]; rfl
  cases hg
  case struck => rw [hub.references_refer hsome]; split_ifs <;> rfl
  case keyless => rw [hub.references_refer hsome]; split_ifs <;> rfl
  case keyed => rw [hub.references_refer hsome]; split_ifs <;> rfl
  case processing hw => rw [Hub.references_congr (hp.2.goes hw).2.members]; rfl
  case last =>
    have hpos := hused rfl
    rw [hub.references_unrefer]
    split_ifs with he
    · subst he
      simp only [refers, Bool.toNat_true, Bool.toNat_false]
      omega
    · rfl
  all_goals rfl

end Handling

namespace Offer

variable {hub hub' : Hub σ} {handler : Handler σ} {h : HandlerId} {stale : Group} {p p' : Offer σ}

theorem Goes.references (hg : Goes hub handler h stale p hub' p')
    (hh : hub.handler? h = some handler)
    (hp : p.Orderly hub h) (hused : p.refers = true → 0 < hub.references h) (other : HandlerId) :
    hub'.references other + (if h = other then p.refers.toNat else 0)
      = hub.references other + if h = other then p'.refers.toNat else 0 := by
  have hsome : (hub.handler? h).isSome = true := by rw [hh]; rfl
  cases hg
  case met => rw [hub.references_refer hsome]; split_ifs <;> rfl
  case sending hw => rw [Hub.references_congr (hp.2.goes hw).2.members]; rfl
  case completing hw => rw [Hub.references_congr (hp.2.goes hw).2.members]; rfl
  case sent ha => rw [Hub.references_congr ha.members]; rfl
  case completed ha => rw [Hub.references_congr ha.members]; rfl
  case last =>
    have hpos := hused rfl
    rw [hub.references_unrefer]
    split_ifs with he
    · subst he
      simp only [refers, Bool.toNat_true, Bool.toNat_false]
      omega
    · rfl
  all_goals rfl

end Offer

theorem Pass.Goes.references {hub hub' : Hub σ} {d : DepotId} {timeout : Nat} {p p' : Pass σ}
    (hg : Goes hub d timeout p hub' p') (hp : p.Orderly hub d) (h : HandlerId) :
    hub'.references h = hub.references h := by
  cases hg
  case hooked hw => exact Hub.references_congr (hp.2.2.2.goes hw).2.members h
  all_goals rfl

namespace Drop

variable {hub hub' : Hub σ} {h : HandlerId} {p : Drop} {f : Frame σ}

theorem letting_of_goes (hs : p.step hub h = .goes hub' f) :
    p = .letting ∧ f = .drop h .disowning ∧ hub' = hub.unrefer h
      ∧ (hub.unrefer h).isLive h = false := by
  cases p <;> simp only [step, reduceCtorEq] at hs
  split_ifs at hs with hl
  cases hs
  exact ⟨rfl, rfl, rfl, by simpa using hl⟩

theorem cases_of_ends {r : Reply} (hs : p.step hub h = .ends hub' r) :
    (p = .letting ∧ hub' = hub.unrefer h) ∨ (p = .disowning ∧ hub' = hub.disown h) := by
  cases p <;> simp only [step] at hs
  · split_ifs at hs
    cases hs
    exact .inl ⟨rfl, rfl⟩
  · cases hs
    exact .inr ⟨rfl, rfl⟩

end Drop

namespace Frame

variable {hub hub' : Hub σ} {f f' inner : Frame σ} {h : HandlerId} {c : Nat}

theorem refers_handling (h h' : HandlerId) (p : Handling σ) :
    ((Frame.handling h' p).refers h).toNat = if h' = h then p.refers.toNat else 0 := by
  unfold refers
  by_cases he : h' = h <;> simp [he]

theorem refers_offer (h h' : HandlerId) (stale : Group) (p : Offer σ) :
    ((Frame.offer h' stale p).refers h).toNat = if h' = h then p.refers.toNat else 0 := by
  unfold refers
  by_cases he : h' = h <;> simp [he]

theorem refers_resume (f : Frame σ) (r : Reply) (h : HandlerId) :
    (f.resume r).refers h = f.refers h := by
  cases f with
  | handling h' p => cases p <;> rfl
  | offer h' stale p => cases p <;> rfl
  | pass d timeout p => rfl
  | drop h' p => rfl

theorem disowns_resume (f : Frame σ) (r : Reply) (h : HandlerId) :
    (f.resume r).disowns h = f.disowns h := by
  cases f with
  | handling h' p => cases p <;> rfl
  | offer h' stale p => cases p <;> rfl
  | pass d timeout p => rfl
  | drop h' p => rfl

/-- Whatever calls beside this one refer to a handler, a step leaves enough references. -/
theorem counted_goes (hf : f.Orderly hub) (hs : f.step hub = .goes hub' f')
    (hused : ∀ h, f.refers h = true → 0 < hub.references h)
    (hlet : f.letsGo h = true → c < hub.references h)
    (hc : c + (f.refers h).toNat ≤ hub.references h) :
    c + (f'.refers h).toNat ≤ hub'.references h := by
  cases f with
  | handling h' p =>
    obtain ⟨handler, hh⟩ := Handling.handler_of_step hs
    obtain ⟨p', rfl, hg⟩ := Handling.goes_of_step hh hs
    have heq := hg.references hh hf (fun hp => hused h' (by simp [refers, hp])) h
    rw [refers_handling] at hc ⊢
    omega
  | offer h' stale p =>
    obtain ⟨handler, hh⟩ := Offer.handler_of_step hs
    obtain ⟨p', rfl, hg⟩ := Offer.goes_of_step hh hs
    have heq := hg.references hh hf (fun hp => hused h' (by simp [refers, hp])) h
    rw [refers_offer] at hc ⊢
    omega
  | pass d timeout p =>
    obtain ⟨p', rfl, hg⟩ := Pass.goes_of_step hs
    rw [hg.references hf]
    exact hc
  | drop h' p =>
    obtain ⟨rfl, rfl, rfl, -⟩ := Drop.letting_of_goes hs
    rw [hub.references_unrefer]
    split_ifs with he
    · have := hlet (by simp [letsGo, he])
      simp only [refers, Bool.toNat_false]
      omega
    · exact hc

theorem counted_ends (hf : f.Orderly hub) {r : Reply} (hs : f.step hub = .ends hub' r)
    (hlet : f.letsGo h = true → c < hub.references h)
    (hc : c + (f.refers h).toNat ≤ hub.references h) : c ≤ hub'.references h := by
  cases f with
  | handling h' p =>
    obtain ⟨-, rfl⟩ | ⟨result, rfl, rfl, -⟩ | ⟨result, rfl, rfl, -⟩ := Handling.ends_of_step hs
    · omega
    · rw [refers_handling] at hc
      rw [hub.references_unrefer]
      split_ifs at hc ⊢
      · simp only [Handling.refers, Bool.toNat_true] at hc
        omega
      · exact hc
    · rw [hub.references_disown]
      omega
  | offer h' stale p =>
    obtain ⟨-, rfl⟩ | ⟨-, rfl⟩ | ⟨outcome, rfl, rfl⟩ | ⟨outcome, rfl, rfl⟩ :=
      Offer.ends_of_step hs
    · omega
    · omega
    · rw [refers_offer] at hc
      rw [hub.references_unrefer]
      split_ifs at hc ⊢
      · simp only [Offer.refers, Bool.toNat_true] at hc
        omega
      · exact hc
    · rw [hub.references_disown]
      omega
  | pass d timeout p =>
    obtain ⟨rfl, -⟩ | ⟨t, -, rfl⟩ := Pass.ends_of_step hs
    · omega
    · rw [hub.references_setDepot]
      omega
  | drop h' p =>
    obtain ⟨rfl, rfl⟩ | ⟨rfl, rfl⟩ := Drop.cases_of_ends hs
    · rw [hub.references_unrefer]
      split_ifs with he
      · have := hlet (by simp [letsGo, he])
        omega
      · omega
    · rw [hub.references_disown]
      omega

/-- Only a call that comes to a handler begins to refer to it. -/
theorem refers_goes (hs : f.step hub = .goes hub' f')
    (hcome : f.arrivesAt h = true → hub.isLive h = true) (hr : f'.refers h = true) :
    f.refers h = true ∨ hub.isLive h = true := by
  cases f with
  | handling h' p =>
    obtain ⟨handler, hh⟩ := Handling.handler_of_step hs
    obtain ⟨p', rfl, hg⟩ := Handling.goes_of_step hh hs
    obtain ⟨heq, -⟩ : h' = h ∧ p'.refers = true := by simpa [refers] using hr
    cases hg
    case last => simp [refers, Handling.refers] at hr
    all_goals first | exact .inl hr | exact .inr (hcome (by simp [arrivesAt, heq]))
  | offer h' stale p =>
    obtain ⟨handler, hh⟩ := Offer.handler_of_step hs
    obtain ⟨p', rfl, hg⟩ := Offer.goes_of_step hh hs
    obtain ⟨heq, -⟩ : h' = h ∧ p'.refers = true := by simpa [refers] using hr
    cases hg
    case met hl => exact .inr (heq ▸ hl)
    case last => simp [refers, Offer.refers] at hr
    all_goals exact .inl hr
  | pass d timeout p =>
    obtain ⟨p', rfl, hg⟩ := Pass.goes_of_step hs
    cases hr
  | drop h' p =>
    obtain ⟨-, rfl, -, -⟩ := Drop.letting_of_goes hs
    cases hr

/-- Only a handler that is gone is about to lose its locks. -/
theorem disowns_goes (hs : f.step hub = .goes hub' f')
    (hlet : f.letsGo h = true → 0 < hub.references h) (hd : f'.disowns h = true) :
    hub'.Gone h := by
  cases f with
  | handling h' p =>
    obtain ⟨handler, hh⟩ := Handling.handler_of_step hs
    obtain ⟨p', rfl, hg⟩ := Handling.goes_of_step hh hs
    cases hg
    case last hl =>
      obtain rfl : h' = h := by simpa [disowns] using hd
      exact ⟨by simp [hh], Hub.isLive_eq_false_iff.1 hl⟩
    all_goals cases hd
  | offer h' stale p =>
    obtain ⟨handler, hh⟩ := Offer.handler_of_step hs
    obtain ⟨p', rfl, hg⟩ := Offer.goes_of_step hh hs
    cases hg
    case last hl =>
      obtain rfl : h' = h := by simpa [disowns] using hd
      exact ⟨by simp [hh], Hub.isLive_eq_false_iff.1 hl⟩
    all_goals cases hd
  | pass d timeout p =>
    obtain ⟨p', rfl, hg⟩ := Pass.goes_of_step hs
    cases hd
  | drop h' p =>
    obtain ⟨rfl, rfl, rfl, hl⟩ := Drop.letting_of_goes hs
    obtain rfl : h' = h := by simpa [disowns] using hd
    have hsome := Hub.isSome_of_references (hlet (by simp [letsGo]))
    exact ⟨by simpa using hsome, Hub.isLive_eq_false_iff.1 hl⟩

/-- No reference comes up but that of the call itself. -/
theorem references_goes (hf : f.Orderly hub) (hs : f.step hub = .goes hub' f')
    (hused : ∀ h, f.refers h = true → 0 < hub.references h) (h : HandlerId) :
    hub'.references h + (f.refers h).toNat ≤ hub.references h + (f'.refers h).toNat := by
  cases f with
  | handling h' p =>
    obtain ⟨handler, hh⟩ := Handling.handler_of_step hs
    obtain ⟨p', rfl, hg⟩ := Handling.goes_of_step hh hs
    have heq := hg.references hh hf (fun hp => hused h' (by simp [refers, hp])) h
    rw [refers_handling, refers_handling]
    exact Nat.le_of_eq heq
  | offer h' stale p =>
    obtain ⟨handler, hh⟩ := Offer.handler_of_step hs
    obtain ⟨p', rfl, hg⟩ := Offer.goes_of_step hh hs
    have heq := hg.references hh hf (fun hp => hused h' (by simp [refers, hp])) h
    rw [refers_offer, refers_offer]
    exact Nat.le_of_eq heq
  | pass d timeout p =>
    obtain ⟨p', rfl, hg⟩ := Pass.goes_of_step hs
    rw [hg.references hf]
    exact Nat.le_refl _
  | drop h' p =>
    obtain ⟨-, rfl, rfl, -⟩ := Drop.letting_of_goes hs
    rw [hub.references_unrefer]
    exact Nat.sub_le _ _

theorem references_ends {r : Reply} (hs : f.step hub = .ends hub' r) (h : HandlerId) :
    hub'.references h ≤ hub.references h := by
  have hunrefer : ∀ h', (hub.unrefer h').references h ≤ hub.references h := fun h' => by
    rw [hub.references_unrefer]
    exact Nat.sub_le _ _
  cases f with
  | handling h' p =>
    obtain ⟨-, rfl⟩ | ⟨result, -, rfl, -⟩ | ⟨result, -, rfl, -⟩ := Handling.ends_of_step hs
    · exact Nat.le_refl _
    · exact hunrefer h'
    · exact Nat.le_of_eq (hub.references_disown h' h)
  | offer h' stale p =>
    obtain ⟨-, rfl⟩ | ⟨-, rfl⟩ | ⟨outcome, -, rfl⟩ | ⟨outcome, -, rfl⟩ := Offer.ends_of_step hs
    · exact Nat.le_refl _
    · exact Nat.le_refl _
    · exact hunrefer h'
    · exact Nat.le_of_eq (hub.references_disown h' h)
  | pass d timeout p =>
    obtain ⟨rfl, -⟩ | ⟨t, -, rfl⟩ := Pass.ends_of_step hs <;> exact Nat.le_refl _
  | drop h' p =>
    obtain rfl | rfl := Drop.ends_of_step hs
    · exact hunrefer h'
    · exact Nat.le_of_eq (hub.references_disown h' h)

/-- A handler that is gone stays so. -/
theorem gone_goes (ho : hub.Orderly) (hf : f.Orderly hub) (hs : f.step hub = .goes hub' f')
    (hused : ∀ h, f.refers h = true → 0 < hub.references h)
    (hcome : f.arrivesAt h = true → hub.isLive h = true) (hg : hub.Gone h) : hub'.Gone h := by
  refine ⟨by rw [(orderly_goes ho hf hs).1.handlers]; exact hg.1, ?_⟩
  have hno : f'.refers h = false := by
    rw [← Bool.not_eq_true]
    intro hr
    rcases refers_goes hs hcome hr with hold | hl
    · exact absurd (hused h hold) (by simp [hg.2])
    · rw [hg.isLive] at hl
      cases hl
  have hle := references_goes hf hs hused h
  rw [hno, hg.2, Bool.toNat_false] at hle
  omega

theorem calls_refers (hs : f.step hub = .calls hub' f' inner) (h : HandlerId) :
    hub' = hub ∧ f'.refers h = f.refers h ∧ inner.refers h = false
      ∧ f'.disowns h = false ∧ inner.disowns h = false := by
  have hscript : ∀ {α : Type} {s : Script σ α}, s.step hub = .calls inner →
      inner.refers h = false ∧ inner.disowns h = false := by
    intro α s hcall
    rcases Script.calls_of_step hcall with ⟨id, m, rfl⟩ | ⟨d, timeout, rfl⟩ <;>
      simp [refers, disowns, Handling.refers]
  cases f with
  | handling h' p =>
    obtain ⟨rfl, rfl, key, g, work, rfl, hw⟩ := Handling.calls_of_step hs
    exact ⟨rfl, rfl, (hscript hw).1, rfl, (hscript hw).2⟩
  | offer h' stale p =>
    obtain ⟨rfl, rfl, ⟨g, m, left, work, rfl, hw⟩ | ⟨g, work, rfl, hw⟩⟩ :=
        Offer.calls_of_step hs <;>
      exact ⟨rfl, rfl, (hscript hw).1, rfl, (hscript hw).2⟩
  | pass d timeout p =>
    obtain ⟨rfl, ⟨t, g, h', left, said, rfl, rfl, rfl⟩
      | ⟨t, g, who, left, said, work, -, rfl, hw⟩⟩ := Pass.calls_of_step hs
    · simp [refers, disowns, Offer.refers]
    · exact ⟨rfl, rfl, (hscript hw).1, rfl, (hscript hw).2⟩
  | drop h' p => exact (Drop.calls_of_step hs).elim

/-- A handler that was there still is, unless its locks are about to be taken. -/
theorem lives_goes (hf : f.Orderly hub) (hs : f.step hub = .goes hub' f')
    (hl : hub.isLive h = true) : hub'.isLive h = true ∨ f'.disowns h = true := by
  rw [Hub.isLive_iff] at hl ⊢
  -- to let go of another handler changes nothing here
  have hunrefer : ∀ h', h' ≠ h → 0 < (hub.unrefer h').references h := fun h' hne => by
    rw [hub.references_unrefer, if_neg hne]
    exact hl
  have hrefer : ∀ h' handler, hub.handler? h' = some handler → 0 < (hub.refer h').references h :=
    fun h' handler hh => by
      rw [hub.references_refer (by simp [hh])]
      omega
  cases f with
  | handling h' p =>
    obtain ⟨handler, hh⟩ := Handling.handler_of_step hs
    obtain ⟨p', rfl, hg⟩ := Handling.goes_of_step hh hs
    cases hg
    case processing hw =>
      exact .inl (by rw [Hub.references_congr (hf.2.goes hw).2.members]; exact hl)
    case last =>
      by_cases he : h' = h
      · exact .inr (by simp [disowns, he])
      · exact .inl (hunrefer h' he)
    all_goals first | exact .inl hl | exact .inl (hrefer h' handler hh)
  | offer h' stale p =>
    obtain ⟨handler, hh⟩ := Offer.handler_of_step hs
    obtain ⟨p', rfl, hg⟩ := Offer.goes_of_step hh hs
    cases hg
    case sending hw => exact .inl (by rw [Hub.references_congr (hf.2.goes hw).2.members]; exact hl)
    case completing hw =>
      exact .inl (by rw [Hub.references_congr (hf.2.goes hw).2.members]; exact hl)
    case sent ha => exact .inl (by rw [Hub.references_congr ha.members]; exact hl)
    case completed ha => exact .inl (by rw [Hub.references_congr ha.members]; exact hl)
    case last =>
      by_cases he : h' = h
      · exact .inr (by simp [disowns, he])
      · exact .inl (hunrefer h' he)
    all_goals first | exact .inl hl | exact .inl (hrefer h' handler hh)
  | pass d timeout p =>
    obtain ⟨p', rfl, hg⟩ := Pass.goes_of_step hs
    exact .inl (by rw [hg.references hf]; exact hl)
  | drop h' p =>
    obtain ⟨-, rfl, rfl, -⟩ := Drop.letting_of_goes hs
    by_cases he : h' = h
    · exact .inr (by simp [disowns, he])
    · exact .inl (hunrefer h' he)

theorem lives_ends {r : Reply} (hs : f.step hub = .ends hub' r) (hl : hub.isLive h = true) :
    hub'.isLive h = true := by
  have hdisown : ∀ h', (hub.disown h').isLive h = true := fun h' => by
    rw [Hub.isLive_iff, hub.references_disown, ← Hub.isLive_iff]
    exact hl
  have hunrefer : ∀ h', (hub.unrefer h').isLive h' = true → (hub.unrefer h').isLive h = true := by
    intro h' hlive
    by_cases he : h' = h
    · exact he ▸ hlive
    · rw [Hub.isLive_iff, hub.references_unrefer, if_neg he, Nat.sub_zero, ← Hub.isLive_iff]
      exact hl
  cases f with
  | handling h' p =>
    obtain ⟨-, rfl⟩ | ⟨result, rfl, rfl, -⟩ | ⟨result, -, rfl, -⟩ := Handling.ends_of_step hs
    · exact hl
    · simp only [step, Handling.step, Handling.leave] at hs
      split at hs
      · rw [← (Turn.ends.inj hs).1]
        exact hl
      · split_ifs at hs with hlive
        exact hunrefer h' hlive
    · exact hdisown h'
  | offer h' stale p =>
    obtain ⟨-, rfl⟩ | ⟨-, rfl⟩ | ⟨outcome, rfl, rfl⟩ | ⟨outcome, -, rfl⟩ := Offer.ends_of_step hs
    · exact hl
    · exact hl
    · simp only [step, Offer.step, Offer.leave] at hs
      split at hs
      · rw [← (Turn.ends.inj hs).1]
        exact hl
      · split_ifs at hs with hlive
        exact hunrefer h' hlive
    · exact hdisown h'
  | pass d timeout p =>
    obtain ⟨rfl, -⟩ | ⟨t, -, rfl⟩ := Pass.ends_of_step hs <;> exact hl
  | drop h' p =>
    obtain ⟨rfl, rfl⟩ | ⟨rfl, rfl⟩ := Drop.cases_of_ends hs
    · simp only [step, Drop.step] at hs
      split_ifs at hs with hlive
      exact hunrefer h' hlive
    · exact hdisown h'

/-- Only the end of a pass takes anybody off a register. -/
theorem participants_goes (ho : hub.Orderly) (hf : f.Orderly hub)
    (hs : f.step hub = .goes hub' f') (d : DepotId) :
    (hub'.depot d).participants = (hub.depot d).participants := by
  cases f with
  | handling h' p =>
    obtain ⟨handler, hh⟩ := Handling.handler_of_step hs
    obtain ⟨p', rfl, hg⟩ := Handling.goes_of_step hh hs
    cases hg
    case added ha =>
      obtain ⟨s, -, rfl⟩ := (ho.service _).add ha
      exact hub.participants_setDepot _ d rfl
    case removed hr =>
      rw [(ho.service _).remove] at hr
      cases hr
      exact hub.participants_setDepot _ d rfl
    case processing hw => rw [(hf.2.goes hw).2.depot]
    all_goals first | rfl | exact hub.participants_setDepot _ d rfl
  | offer h' stale p =>
    obtain ⟨handler, hh⟩ := Offer.handler_of_step hs
    obtain ⟨p', rfl, hg⟩ := Offer.goes_of_step hh hs
    cases hg
    case removed hr =>
      rw [(ho.service _).remove] at hr
      cases hr
      exact hub.participants_setDepot _ d rfl
    case sending hw => rw [(hf.2.goes hw).2.depot]
    case completing hw => rw [(hf.2.goes hw).2.depot]
    case sent ha => rw [ha.depot]
    case completed ha => rw [ha.depot]
    all_goals first | rfl | exact hub.participants_setDepot _ d rfl
  | pass d' timeout p =>
    obtain ⟨p', rfl, hg⟩ := Pass.goes_of_step hs
    cases hg
    case hooked hw => rw [(hf.2.2.2.goes hw).2.depot]
    all_goals first | rfl | exact hub.participants_setDepot _ d rfl
  | drop h' p =>
    obtain ⟨-, rfl, rfl, -⟩ := Drop.letting_of_goes hs
    rfl

theorem participants_ends {r : Reply} (hs : f.step hub = .ends hub' r) {d : DepotId}
    {who : Participant} (hw : who ∈ (hub.depot d).participants) :
    who ∈ (hub'.depot d).participants
      ∨ ∃ timeout t, f = .pass d timeout (.pruning t) ∧ who ∈ t.detached := by
  have hdisown : ∀ h', who ∈ ((hub.disown h').depot d).participants := by
    intro h'
    rcases hh : hub.handler? h' with _ | handler
    · rw [Hub.disown_of_handler?_none hh]
      exact hw
    · rw [Hub.disown_of_handler? hh, hub.participants_setDepot ((hub.depot _).disown h') d rfl]
      exact hw
  cases f with
  | handling h' p =>
    obtain ⟨-, rfl⟩ | ⟨result, -, rfl, -⟩ | ⟨result, -, rfl, -⟩ := Handling.ends_of_step hs
    · exact .inl hw
    · exact .inl hw
    · exact .inl (hdisown h')
  | offer h' stale p =>
    obtain ⟨-, rfl⟩ | ⟨-, rfl⟩ | ⟨outcome, -, rfl⟩ | ⟨outcome, -, rfl⟩ := Offer.ends_of_step hs
    · exact .inl hw
    · exact .inl hw
    · exact .inl hw
    · exact .inl (hdisown h')
  | pass d' timeout p =>
    obtain ⟨rfl, -⟩ | ⟨t, rfl, rfl⟩ := Pass.ends_of_step hs
    · exact .inl hw
    · by_cases hd : d' = d
      · subst hd
        by_cases hmem : who ∈ t.detached
        · exact .inr ⟨timeout, t, rfl, hmem⟩
        · rcases Nat.lt_or_ge d' hub.depots.length with hlt | hge
          · rw [Hub.depot_setDepot_self hub _ hlt]
            exact .inl (List.mem_filter.2 ⟨hw, by simpa using hmem⟩)
          · rw [Hub.setDepot_of_le _ hge]
            exact .inl hw
      · rw [Hub.depot_setDepot_ne hub _ hd]
        exact .inl hw
  | drop h' p =>
    obtain rfl | rfl := Drop.ends_of_step hs
    · exact .inl hw
    · exact .inl (hdisown h')

theorem frame_refers (a : Activity) (h : HandlerId) :
    (a.frame : Frame σ).refers h = false ∧ (a.frame : Frame σ).disowns h = false := by
  cases a <;> simp [Activity.frame, refers, disowns, Handling.refers]

end Frame

/-! ## Along a run -/

/-- A machine whose calls refer to handlers that are there, and where only handlers that are gone
are about to lose their locks. -/
structure Machine.Attended (s : Machine σ) : Prop where
  counted : ∀ h, s.callers h ≤ s.hub.references h
  disowned : ∀ f ∈ s.frames, ∀ h, f.disowns h = true → s.hub.Gone h

namespace Machine

theorem mem_frames {s : Machine σ} {p : Place} {f : Frame σ} (hp : s.frameAt p = some f) :
    f ∈ s.frames := by
  obtain ⟨t, ht, hf⟩ := Option.bind_eq_some_iff.1 hp
  exact List.mem_flatMap.2 ⟨t, List.mem_of_getElem? ht,
    List.mem_reverse.1 (List.mem_of_getElem? hf)⟩

theorem countP_flatMap_set {α β : Type} (q : β → Bool) (f : α → List β) :
    ∀ {l : List α} {i : Nat} {a b : α}, l[i]? = some a →
      ((l.set i b).flatMap f).countP q + (f a).countP q
        = (l.flatMap f).countP q + (f b).countP q
  | [], _, _, _, h => by cases h
  | x :: l, 0, a, b, h => by
    cases h
    simp only [List.set_cons_zero, List.flatMap_cons, List.countP_append]
    omega
  | x :: l, i + 1, a, b, h => by
    have ih := countP_flatMap_set q f (b := b) (l := l) (i := i) h
    simp only [List.set_cons_succ, List.flatMap_cons, List.countP_append]
    omega

/-- The calls that refer to a handler beside the innermost call of a thread. -/
theorem callers_beside {s : Machine σ} {i : Nat} {t : Thread σ} {f : Frame σ}
    {below : List (Frame σ)} (ht : s.threads[i]? = some t) (hf : t.stack = f :: below)
    (h : HandlerId) : ∃ c, s.callers h = c + (f.refers h).toNat
      ∧ ∀ hub t', (⟨hub, s.threads.set i t'⟩ : Machine σ).callers h + below.countP (Frame.refers h)
        = c + t'.stack.countP (Frame.refers h) := by
  have hset := fun t' : Thread σ =>
    countP_flatMap_set (Frame.refers h) Thread.stack (b := t') ht
  have hcons : t.stack.countP (Frame.refers h)
      = below.countP (Frame.refers h) + (f.refers h).toNat := by
    rw [hf, List.countP_cons]
    cases f.refers h <;> rfl
  have hempty := hset ⟨[], none⟩
  simp only [List.countP_nil] at hempty
  refine ⟨s.callers h - (f.refers h).toNat, ?_, fun hub t' => ?_⟩
  · unfold callers frames
    omega
  · have := hset t'
    unfold callers frames at *
    dsimp only at *
    omega

theorem Attended.pos {s : Machine σ} (ha : s.Attended) {f : Frame σ} (hf : f ∈ s.frames)
    {h : HandlerId} (hr : f.refers h = true) : 0 < s.hub.references h :=
  Nat.lt_of_lt_of_le (List.countP_pos_iff.2 ⟨f, hf, hr⟩) (ha.counted h)

/-- A thread goes on; the handlers that were gone still are. -/
theorem Attended.set {s : Machine σ} (ha : s.Attended) {hub : Hub σ} {i : Nat} {t : Thread σ}
    (hcounted : ∀ h, (⟨hub, s.threads.set i t⟩ : Machine σ).callers h ≤ hub.references h)
    (hgone : ∀ h, s.hub.Gone h → hub.Gone h)
    (hnew : ∀ f ∈ t.stack, ∀ h, f.disowns h = true → hub.Gone h) :
    Attended ⟨hub, s.threads.set i t⟩ := by
  refine ⟨hcounted, fun f hf h hd => ?_⟩
  obtain ⟨t', ht', hf'⟩ := List.mem_flatMap.1 hf
  rcases List.mem_or_eq_of_mem_set ht' with hold | rfl
  · exact hgone h (ha.disowned f (List.mem_flatMap.2 ⟨t', hold, hf'⟩) h hd)
  · exact hnew f hf' h hd

theorem attended_step {s : Machine σ} (ho : s.Orderly) (ha : s.Attended) {i : Nat}
    (he : Move.entitled s (.event (.step i)) = true) :
    (s.apply (.step i)).Attended
      ∧ ∀ h, s.hub.Gone h → (s.apply (.step i)).hub.Gone h := by
  simp only [apply, progress]
  rcases ht : s.threads[i]? with _ | ⟨stack, reply⟩
  · exact ⟨ha, fun _ h => h⟩
  rcases stack with _ | ⟨f, below⟩
  · exact ⟨ha, fun _ h => h⟩
  have hf := ho.frames _ f (frameAt_top ht rfl)
  have hmem : f ∈ s.frames := mem_frames (frameAt_top ht rfl)
  have hused : ∀ h, f.refers h = true → 0 < s.hub.references h := fun h => ha.pos hmem
  have hallows : s.allows f = true := by simpa [Move.entitled, ht] using he
  have hcome := fun h => live_of_allows hallows (h := h)
  have hlet := fun h => spare_of_allows hallows (h := h)
  have hlet' : ∀ h, f.letsGo h = true → 0 < s.hub.references h :=
    fun h hl => Nat.lt_of_le_of_lt (Nat.zero_le _) (hlet h hl)
  have hbelow : ∀ g ∈ below, g ∈ s.frames := fun g hg =>
    List.mem_flatMap.2 ⟨_, List.mem_of_getElem? ht, List.mem_cons_of_mem _ hg⟩
  rcases hs : f.step s.hub with ⟨hub, f'⟩ | ⟨hub, f', inner⟩ | ⟨hub, r⟩ | deadline <;>
    simp only [Thread.step, hs]
  · have hgone : ∀ h, s.hub.Gone h → hub.Gone h :=
      fun h => Frame.gone_goes ho.hub hf hs hused (hcome h)
    refine ⟨ha.set (fun h => ?_) hgone fun g hg h hd => ?_, hgone⟩
    · obtain ⟨c, hc, hset⟩ := callers_beside ht rfl h
      have hcounted := Frame.counted_goes (c := c) hf hs hused
        (fun hl => by have := hlet h hl; omega) (hc ▸ ha.counted h)
      have hnew := hset hub ⟨f' :: below, reply⟩
      rw [List.countP_cons] at hnew
      cases hr : f'.refers h <;> simp [hr] at hnew hcounted <;> omega
    · rcases List.mem_cons.1 hg with rfl | hg
      · exact Frame.disowns_goes hs (hlet' h) hd
      · exact hgone h (ha.disowned g (hbelow g hg) h hd)
  · obtain rfl := (Frame.calls_refers hs 0).1
    refine ⟨ha.set (fun h => ?_) (fun _ h => h) fun g hg h hd => ?_, fun _ h => h⟩
    · obtain ⟨-, hcaller, hinner, -⟩ := Frame.calls_refers hs h
      obtain ⟨c, hc, hset⟩ := callers_beside ht rfl h
      have hcounted := ha.counted h
      have hnew := hset s.hub ⟨inner :: f' :: below, reply⟩
      rw [List.countP_cons, List.countP_cons, hcaller, hinner] at hnew
      cases hr : f.refers h <;> simp [hr] at hnew hc <;> omega
    · obtain ⟨-, -, -, hcaller, hinner⟩ := Frame.calls_refers hs h
      rcases List.mem_cons.1 hg with rfl | hg
      · exact absurd hd (by simp [hinner])
      · rcases List.mem_cons.1 hg with rfl | hg
        · exact absurd hd (by simp [hcaller])
        · exact ha.disowned g (hbelow g hg) h hd
  · have hgone : ∀ h, s.hub.Gone h → hub.Gone h := by
      rintro h ⟨hsome, hzero⟩
      have hle := Frame.references_ends hs h
      exact ⟨by rw [(Frame.keeps_ends hs).handlers]; exact hsome, by omega⟩
    have hcounted : ∀ h stack, stack.countP (Frame.refers h) = below.countP (Frame.refers h) →
        ∀ reply, (⟨hub, s.threads.set i ⟨stack, reply⟩⟩ : Machine σ).callers h
          ≤ hub.references h := by
      intro h stack hstack reply
      obtain ⟨c, hc, hset⟩ := callers_beside ht rfl h
      have hle := Frame.counted_ends (c := c) hf hs (fun hl => by have := hlet h hl; omega)
        (hc ▸ ha.counted h)
      have hnew := hset hub ⟨stack, reply⟩
      dsimp only at hnew
      omega
    rcases below with _ | ⟨g, rest⟩
    · refine ⟨ha.set (fun h => hcounted h [] rfl _) hgone fun g hg => ?_, hgone⟩
      cases hg
    · refine ⟨ha.set (fun h => hcounted h _ ?_ _) hgone fun g' hg' h hd => ?_, hgone⟩
      · rw [List.countP_cons, List.countP_cons, Frame.refers_resume]
      · refine hgone h ?_
        rcases List.mem_cons.1 hg' with rfl | hg'
        · exact ha.disowned g (hbelow g List.mem_cons_self) h (Frame.disowns_resume g r h ▸ hd)
        · exact ha.disowned g' (hbelow g' (List.mem_cons_of_mem _ hg')) h hd
  · exact ⟨ha, fun _ h => h⟩

theorem attended_initial (outside : σ) (idOf : Nat → MessageId) :
    (initial outside idOf).Attended where
  counted h := by simp [callers, frames, initial]
  disowned f hf := by simp [frames, initial] at hf

end Machine

/-- What holds of the calls of a machine that is attended, as it is seen from the places. -/
structure Attentive (hub : Hub σ) (at_ : Place → Option (Frame σ)) : Prop where
  used : ∀ {p f h}, at_ p = some f → f.refers h = true → hub.isLive h = true
  disowned : ∀ {p f h}, at_ p = some f → f.disowns h = true → hub.Gone h

/-- What a move does with the handlers and with the registers of the depots. -/
structure Tends (hub : Hub σ) (at_ : Place → Option (Frame σ)) (hub' : Hub σ)
    (at' : Place → Option (Frame σ)) : Prop where
  before : Attentive hub at_
  after : Attentive hub' at'
  gone : ∀ h, hub.Gone h → hub'.Gone h
  lives : ∀ h, hub.isLive h = true →
    hub'.isLive h = true ∨ ∃ p f, at' p = some f ∧ f.disowns h = true
  enrols : ∀ h d, hub.handler? h = none → hub'.home? h = some d →
    .handler h ∈ (hub'.depot d).participants
  stays : ∀ d who, who ∈ (hub.depot d).participants → who ∈ (hub'.depot d).participants
    ∨ ∃ p timeout t, at_ p = some (.pass d timeout (.pruning t)) ∧ who ∈ t.detached

namespace Machine

theorem Attended.attentive {s : Machine σ} (ha : s.Attended) : Attentive s.hub s.frameAt where
  used hp hr := Hub.isLive_iff.2 (ha.pos (mem_frames hp) hr)
  disowned hp hd := ha.disowned _ (mem_frames hp) _ hd

/-- A move beside the calls takes nothing away from the handlers and the registers. -/
theorem Attended.beside {s : Machine σ} (ha : s.Attended) {hub : Hub σ}
    (hrefs : ∀ h, s.hub.references h ≤ hub.references h)
    (hgone : ∀ h, s.hub.Gone h → hub.Gone h)
    (henrols : ∀ h d, s.hub.handler? h = none → hub.home? h = some d →
      .handler h ∈ (hub.depot d).participants)
    (hstays : ∀ d, (s.hub.depot d).participants ⊆ (hub.depot d).participants) :
    Tends s.hub s.frameAt hub s.frameAt ∧ Attended ⟨hub, s.threads⟩ := by
  have hafter : Attended ⟨hub, s.threads⟩ :=
    ⟨fun h => Nat.le_trans (ha.counted h) (hrefs h),
      fun f hf h hd => hgone h (ha.disowned f hf h hd)⟩
  exact ⟨⟨ha.attentive, hafter.attentive, hgone,
    fun h hl => .inl (Hub.isLive_iff.2 (Nat.lt_of_lt_of_le (Hub.isLive_iff.1 hl) (hrefs h))),
    henrols, fun d who hw => .inl (hstays d hw)⟩, hafter⟩

/-- A hub with the members and the depots that it had. -/
theorem Attended.same {s : Machine σ} (ha : s.Attended) {hub : Hub σ}
    (hm : hub.members = s.hub.members) (hd : hub.depots = s.hub.depots) :
    Tends s.hub s.frameAt hub s.frameAt ∧ Attended ⟨hub, s.threads⟩ := by
  have hhandler : ∀ h, hub.handler? h = s.hub.handler? h := fun h => by
    simp only [Hub.handler?, Hub.member?, hm]
  refine ha.beside (fun h => Nat.le_of_eq (Hub.references_congr hm h).symm)
    (fun h hg => ⟨by rw [hhandler]; exact hg.1, by rw [Hub.references_congr hm]; exact hg.2⟩)
    (fun h d hnone hhome => ?_) fun d => ?_
  · rw [Hub.home?, hhandler, hnone] at hhome
    cases hhome
  · simp only [Hub.depot, hd]
    exact List.Subset.refl _

theorem tends_step {s : Machine σ} (ho : s.Orderly) (ha : s.Attended) {i : Nat}
    (he : Move.entitled s (.event (.step i)) = true) :
    Tends s.hub s.frameAt (s.apply (.step i)).hub (s.apply (.step i)).frameAt
      ∧ (s.apply (.step i)).Attended := by
  obtain ⟨hafter, hgone⟩ := attended_step ho ha he
  -- what the step is, if there is one
  have hstep : (s.apply (.step i)).hub = s.hub
      ∨ ∃ p f, s.frameAt p = some f ∧ ((∃ f', f.step s.hub = .goes (s.apply (.step i)).hub f'
          ∧ (s.apply (.step i)).frameAt p = some f')
        ∨ ∃ r, f.step s.hub = .ends (s.apply (.step i)).hub r) := by
    rcases ht : s.threads[i]? with _ | ⟨stack, reply⟩
    · exact .inl (by simp only [apply, progress, ht])
    rcases stack with _ | ⟨f, below⟩
    · exact .inl (by simp only [apply, progress, ht, Thread.step])
    have hp := frameAt_top ht rfl
    simp only [apply, progress, ht, Thread.step]
    rcases hs : f.step s.hub with ⟨hub, f'⟩ | ⟨hub, f', inner⟩ | ⟨hub, r⟩ | deadline <;>
      simp only
    · refine .inr ⟨_, f, hp, .inl ⟨f', hs, ?_⟩⟩
      rw [frameAt_set_top hub ht rfl rfl, Function.update_self]
    · exact .inl (Frame.calls_refers hs 0).1
    · exact .inr ⟨_, f, hp, .inr ⟨r, by rcases below with _ | ⟨g, rest⟩ <;> exact hs⟩⟩
    · exact .inl trivial
  refine ⟨⟨ha.attentive, hafter.attentive, hgone, fun h hl => ?_, fun h d hnone hhome => ?_,
    fun d who hw => ?_⟩, hafter⟩
  · rcases hstep with hsame | ⟨p, f, hp, ⟨f', hs, hp'⟩ | ⟨r, hs⟩⟩
    · exact .inl (hsame ▸ hl)
    · exact (Frame.lives_goes (ho.frames p f hp) hs hl).imp_right fun hd => ⟨p, f', hp', hd⟩
    · exact .inl (Frame.lives_ends hs hl)
  · rw [Hub.home?, (keeps_step ho i).handlers, hnone] at hhome
    cases hhome
  · rcases hstep with hsame | ⟨p, f, hp, ⟨f', hs, -⟩ | ⟨r, hs⟩⟩
    · exact .inl (hsame ▸ hw)
    · exact .inl ((Frame.participants_goes ho.hub (ho.frames p f hp) hs d).symm ▸ hw)
    · rcases Frame.participants_ends hs hw with hold | ⟨timeout, t, rfl, hmem⟩
      · exact .inl hold
      · exact .inr ⟨p, timeout, t, hp, hmem⟩

theorem tends_start {s : Machine σ} (ha : s.Attended) (a : Activity) :
    Tends s.hub s.frameAt (s.apply (.start a)).hub (s.apply (.start a)).frameAt
      ∧ (s.apply (.start a)).Attended := by
  have hframes : (s.apply (.start a)).frames = s.frames ++ [a.frame] := by
    simp [frames, apply, Thread.start]
  have hafter : (s.apply (.start a)).Attended := by
    refine ⟨fun h => ?_, fun f hf h hd => ?_⟩
    · have hcounted := ha.counted h
      simp only [callers, hframes, List.countP_append, List.countP_cons, List.countP_nil,
        (Frame.frame_refers a h).1]
      exact hcounted
    · rw [hframes] at hf
      rcases List.mem_append.1 hf with hf | hf
      · exact ha.disowned f hf h hd
      · rw [List.mem_singleton.1 hf, (Frame.frame_refers a h).2] at hd
        cases hd
  refine ⟨⟨ha.attentive, hafter.attentive, fun _ h => h, fun h hl => .inl hl,
    fun h d hnone hhome => ?_, fun d who hw => .inl hw⟩, hafter⟩
  rw [Hub.home?, show (s.apply (.start a)).hub.handler? h = s.hub.handler? h from rfl, hnone]
    at hhome
  cases hhome

theorem tends_build {s : Machine σ} (ho : s.Orderly) (ha : s.Attended) {handler : Handler σ}
    (hh : handler.Discreet) (hd : handler.depot < s.hub.depots.length) :
    Tends s.hub s.frameAt (s.hub.build handler).1 s.frameAt
      ∧ Attended ⟨(s.hub.build handler).1, s.threads⟩ := by
  obtain ⟨-, hjoined⟩ := Hub.orderly_engage ho.hub hh hd
  rw [Hub.build_orderly hjoined]
  generalize hj : ({ s.hub with members := s.hub.members ++ [⟨handler, 1⟩] } : Hub σ) = joined
  obtain ⟨-, hnew⟩ := Hub.participants_join joined handler.depot handler.depot
    (.handler s.hub.members.length)
  have hhandler : ∀ h, h ≠ s.hub.members.length → joined.handler? h = s.hub.handler? h :=
    fun h hne => by rw [← hj, Hub.handler?_append, if_neg hne]
  refine ha.beside (fun h => ?_) (fun h hg => ?_) (fun h d hnone hhome => ?_)
    fun d => ?_
  · rw [Hub.references_setDepot, ← hj, Hub.references_append]
    split_ifs with heq
    · rw [heq, Hub.references_length]
      exact Nat.zero_le _
    · exact Nat.le_refl _
  · have hne : h ≠ s.hub.members.length := by
      rintro rfl
      simp [Hub.Gone, Hub.handler?_length] at hg
    exact ⟨by rw [Hub.handler?_setDepot, hhandler h hne]; exact hg.1,
      by rw [Hub.references_setDepot, ← hj, Hub.references_append, if_neg hne]; exact hg.2⟩
  · simp only [Hub.home?, Hub.handler?_setDepot] at hhome
    by_cases heq : h = s.hub.members.length
    · rw [heq, ← hj, Hub.handler?_append, if_pos rfl] at hhome
      cases hhome
      rw [heq]
      exact hnew (hj ▸ hd)
    · rw [hhandler h heq, hnone] at hhome
      cases hhome
  · rw [show (s.hub.depot d) = joined.depot d from hj ▸ rfl]
    exact (Hub.participants_join joined handler.depot d _).1

/-- A move by somebody who may make it tends the handlers and the registers. -/
theorem tends_move {s : Machine σ} (ho : s.Orderly) (ha : s.Attended) {mv : Move σ}
    (hl : mv.Lawful s.hub) (he : mv.entitled s = true) :
    Tends s.hub s.frameAt (s.move mv).hub (s.move mv).frameAt ∧ (s.move mv).Attended := by
  cases mv with
  | event e =>
    cases e with
    | start a => exact tends_start ha a
    | step i => exact tends_step ho ha he
    | elapse n => exact ha.same rfl rfl
    | build handler => exact tends_build ho ha hl.1 hl.2
  | openDepot capacity =>
    have hhandler : ∀ h, (s.hub.openDepot capacity).1.handler? h = s.hub.handler? h := fun _ => rfl
    simp only [move, onHub]
    refine ha.beside (fun h => Nat.le_refl _) (fun h hg => hg) (fun h d hnone hhome => ?_)
      fun d => ?_
    · rw [Hub.home?, hhandler, hnone] at hhome
      cases hhome
    · rw [Hub.depot_openDepot]
      split_ifs with heq
      · rw [heq, Hub.depot_length]
        exact List.Subset.refl _
      · exact List.Subset.refl _
  | enlist d hook =>
    have hhandler : ∀ h, (s.hub.addHook hook).1.handler? h = s.hub.handler? h := fun _ => rfl
    simp only [move, onHub, Hub.register_orderly (Hub.orderly_enlist ho.hub hl), Except.toOption,
      Option.getD_some]
    refine ha.beside (fun h => Nat.le_refl _) (fun h hg => hg) (fun h d' hnone hhome => ?_)
      fun d' => (Hub.participants_join (s.hub.addHook hook).1 d d' _).1
    rw [Hub.home?, Hub.handler?_setDepot, hhandler, hnone] at hhome
    cases hhome
  | rearrange arrange => exact ha.same rfl rfl
  | reform h code =>
    obtain ⟨haside, -⟩ := Hub.orderly_reform ho.hub hl.1 hl.2
    simp only [move, onHub]
    refine ha.beside (fun h' => Nat.le_of_eq (Hub.references_reform _ _ _ _).symm)
      (fun h' hg => ⟨haside.grows.isSome hg.1, by rw [Hub.references_reform]; exact hg.2⟩)
      (fun h' d hnone hhome => ?_) fun d => List.Subset.refl _
    rw [Hub.home?, Hub.handler?_reform, hnone] at hhome
    split_ifs at hhome <;> cases hhome
  | disturb change => exact ha.same rfl rfl

/-- What holds at first and goes on holding with every move by somebody who may make it holds after
every such run. -/
theorem along_entitled {P : Hub σ → (Place → Option (Frame σ)) → List Note → Prop}
    (advance : ∀ {hub at_ hub' at' notes new}, hub.Orderly → hub'.Orderly →
      (∀ p f, at_ p = some f → f.Orderly hub) → Tends hub at_ hub' at' →
      Advance hub at_ hub' at' new → P hub at_ notes → P hub' at' (notes ++ new))
    {s : Machine σ} (ho : s.Orderly) (ha : s.Attended) (start : P s.hub s.frameAt [])
    (moves : List (Move σ)) (hl : s.Lawful moves) (he : s.entitled moves = true) :
    P (s.after moves).hub (s.after moves).frameAt (s.history moves)
      ∧ (s.after moves).Attended := by
  suffices h : ∀ (moves : List (Move σ)) (s : Machine σ) (notes : List Note), s.Orderly →
      s.Attended → P s.hub s.frameAt notes → s.Lawful moves → s.entitled moves = true →
      P (s.after moves).hub (s.after moves).frameAt (notes ++ s.history moves)
        ∧ (s.after moves).Attended from
    h moves s [] ho ha start hl he
  intro moves
  induction moves with
  | nil =>
    intro s notes ho ha hs hl he
    exact ⟨by simpa [after, history] using hs, ha⟩
  | cons mv moves ih =>
    intro s notes ho ha hs hl he
    obtain ⟨he, he'⟩ : mv.entitled s = true ∧ (s.move mv).entitled moves = true := by
      simpa [Machine.entitled] using he
    obtain ⟨htends, ha'⟩ := tends_move ho ha hl.1 he
    have ho' := orderly_move ho hl.1
    have hnext := advance ho.hub ho'.hub ho.frames htends (advance_move ho hl.1).1 hs
    have hlast := ih (s.move mv) (notes ++ s.notes mv) ho' ha' hnext hl.2 he'
    simpa [after, history] using hlast

end Machine

end Collate
