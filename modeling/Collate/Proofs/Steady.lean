import Collate.Proofs.Grips

/-!
# What no step changes

A step may change the groups, the locks and the register of a depot, but not how many messages there
is room for, and no step changes the order in which stale groups are taken or takes time of its own
(`Frame.steady_goes`, `Frame.steady_ends`).
-/

namespace Collate

variable {σ : Type}

/-- Hubs that take stale groups in one order and have as much room in each depot, at one time. -/
structure Hub.Steady (hub hub' : Hub σ) : Prop where
  arrange : hub'.arrange = hub.arrange
  capacity : ∀ d, (hub'.depot d).store.capacity = (hub.depot d).store.capacity
  clock : hub'.clock = hub.clock

namespace Hub

variable {hub hub' : Hub σ}

theorem Steady.refl (hub : Hub σ) : hub.Steady hub := ⟨rfl, fun _ => rfl, rfl⟩

theorem Steady.trans {hub'' : Hub σ} (h : hub.Steady hub') (h' : hub'.Steady hub'') :
    hub.Steady hub'' :=
  ⟨h'.arrange.trans h.arrange, fun d => (h'.capacity d).trans (h.capacity d),
    h'.clock.trans h.clock⟩

theorem Alike.steady (h : hub.Alike hub') : hub.Steady hub' :=
  ⟨h.arrange, fun d => by rw [h.depot], h.clock⟩

theorem steady_setDepot (hub : Hub σ) {d : DepotId} {depot : Depot}
    (hc : depot.store.capacity = (hub.depot d).store.capacity) :
    hub.Steady (hub.setDepot d depot) := by
  refine ⟨rfl, fun other => ?_, rfl⟩
  by_cases hne : d = other
  · subst hne
    by_cases hd : d < hub.depots.length
    · rw [depot_setDepot_self hub depot hd, hc]
    · rw [setDepot_of_le depot (Nat.le_of_not_lt hd)]
  · rw [depot_setDepot_ne hub depot hne]

theorem steady_disown (hub : Hub σ) (h : HandlerId) : hub.Steady (hub.disown h) := by
  rcases hh : hub.handler? h with _ | handler
  · rw [disown_of_handler?_none hh]
    exact .refl hub
  · rw [disown_of_handler? hh]
    exact hub.steady_setDepot rfl

end Hub

section Steady

variable {hub hub' : Hub σ} {f f' : Frame σ}

theorem Depot.capacity_add {depot depot' : Depot} {key : Key} {m : Message} {now : Instant}
    {g : Group} (h : depot.add key m now = .ok (depot', g)) :
    depot'.store.capacity = depot.store.capacity := by
  unfold Depot.add at h
  split at h
  · cases h
  · rcases hs : depot.store.add key m now with e | ⟨store, g'⟩ <;> rw [hs] at h <;> cases h
    exact (Store.add_ok hs).2.1

theorem Depot.capacity_remove {depot depot' : Depot} {key : Key} {g : Option Group}
    (h : depot.remove key = .ok (depot', g)) : depot'.store.capacity = depot.store.capacity := by
  unfold Depot.remove at h
  split at h <;> cases h
  rfl

theorem Script.steady_goes {α : Type} {s s' : Script σ α} (hs : s.step hub = .goes hub' s') :
    hub.Steady hub' := by
  cases s <;> simp only [Script.step, reduceCtorEq] at hs
  case add d key m next =>
    split at hs <;> cases hs
    · exact hub.steady_setDepot (Depot.capacity_add ‹_›)
    · exact .refl hub
  case remove d key next =>
    split at hs <;> cases hs
    · exact hub.steady_setDepot (Depot.capacity_remove ‹_›)
    · exact .refl hub
  all_goals cases hs
  all_goals exact ⟨rfl, fun _ => rfl, rfl⟩

theorem Handling.Goes.steady {handler : Handler σ} {h : HandlerId} {p p' : Handling σ}
    (hg : Goes hub handler h p hub' p') : hub.Steady hub' := by
  cases hg
  case taken => exact hub.steady_setDepot rfl
  case added ha => exact hub.steady_setDepot (Depot.capacity_add ha)
  case processing hw => exact Script.steady_goes hw
  case removed hr => exact hub.steady_setDepot (Depot.capacity_remove hr)
  case released => exact hub.steady_setDepot rfl
  all_goals exact ⟨rfl, fun _ => rfl, rfl⟩

theorem Offer.Goes.steady {handler : Handler σ} {h : HandlerId} {stale : Group} {p p' : Offer σ}
    (hg : Goes hub handler h stale p hub' p') : hub.Steady hub' := by
  cases hg
  case taken => exact hub.steady_setDepot rfl
  case sending hw => exact Script.steady_goes hw
  case completing hw => exact Script.steady_goes hw
  case sent ha => exact ha.steady
  case completed ha => exact ha.steady
  case removed hr => exact hub.steady_setDepot (Depot.capacity_remove hr)
  case released => exact hub.steady_setDepot rfl
  all_goals exact ⟨rfl, fun _ => rfl, rfl⟩

theorem Pass.Goes.steady {d : DepotId} {timeout : Nat} {p p' : Pass σ}
    (hg : Goes hub d timeout p hub' p') : hub.Steady hub' := by
  cases hg
  case hooked hw => exact Script.steady_goes hw
  case claimed => exact hub.steady_setDepot rfl
  case swept => exact hub.steady_setDepot rfl
  case kept => exact hub.steady_setDepot rfl
  case freed => exact hub.steady_setDepot rfl
  all_goals exact ⟨rfl, fun _ => rfl, rfl⟩

theorem Frame.steady_goes (hs : f.step hub = .goes hub' f') : hub.Steady hub' := by
  cases f with
  | handling h p =>
    obtain ⟨handler, hh⟩ := Handling.handler_of_step hs
    obtain ⟨p', -, hg⟩ := Handling.goes_of_step hh hs
    exact hg.steady
  | offer h stale p =>
    obtain ⟨handler, hh⟩ := Offer.handler_of_step hs
    obtain ⟨p', -, hg⟩ := Offer.goes_of_step hh hs
    exact hg.steady
  | pass d timeout p =>
    obtain ⟨p', -, hg⟩ := Pass.goes_of_step hs
    exact hg.steady
  | drop h p =>
    rw [(Drop.goes_of_step hs).2]
    exact ⟨rfl, fun _ => rfl, rfl⟩

theorem Frame.steady_ends {r : Reply} (hs : f.step hub = .ends hub' r) : hub.Steady hub' := by
  have hunrefer : ∀ h, hub.Steady (hub.unrefer h) := fun _ => ⟨rfl, fun _ => rfl, rfl⟩
  cases f with
  | handling h p =>
    obtain ⟨-, rfl⟩ | ⟨result, -, rfl, -⟩ | ⟨result, -, rfl, -⟩ := Handling.ends_of_step hs
    · exact .refl _
    · exact hunrefer h
    · exact hub.steady_disown h
  | offer h stale p =>
    obtain ⟨-, rfl⟩ | ⟨-, rfl⟩ | ⟨outcome, -, rfl⟩ | ⟨outcome, -, rfl⟩ := Offer.ends_of_step hs
    · exact .refl _
    · exact .refl _
    · exact hunrefer h
    · exact hub.steady_disown h
  | pass d timeout p =>
    obtain ⟨rfl, -⟩ | ⟨t, -, rfl⟩ := Pass.ends_of_step hs
    · exact .refl _
    · exact hub.steady_setDepot rfl
  | drop h p =>
    obtain rfl | rfl := Drop.ends_of_step hs
    · exact hunrefer h
    · exact hub.steady_disown h

end Steady

end Collate
