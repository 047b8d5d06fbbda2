import Collate.Hub
import Mathlib.Tactic.SplitIfs
import Mathlib.Tactic.Cases

/-!
# What the operations of a depot change

A store is seen through the group it has for a key, the locks through the entry they have for a
key, and a hub through its depots and its handlers. Each operation says what it changes of these;
nothing else of it is used later.
-/

namespace Collate

theorem getElem?_snoc {α : Type} (l : List α) (a : α) (n : Nat) :
    (l ++ [a])[n]? = if n = l.length then some a else l[n]? := by
  rcases Nat.lt_trichotomy n l.length with h | h | h
  · rw [List.getElem?_append_left h, if_neg (Nat.ne_of_lt h)]
  · simp [h]
  · rw [if_neg (Nat.ne_of_gt h), List.getElem?_eq_none (by simp; omega),
      List.getElem?_eq_none (Nat.le_of_lt h)]

/-- A place in a list with one more entry is the last one or a place in the list. -/
theorem snoc_eq_append_cons {α : Type} {l before rest : List α} {a x : α}
    (h : l ++ [a] = before ++ x :: rest) :
    (before = l ∧ x = a) ∨ ∃ rest', l = before ++ x :: rest' := by
  rcases List.eq_nil_or_concat rest with rfl | ⟨rest, y, rfl⟩
  · obtain ⟨rfl, hlast⟩ := List.append_inj' h rfl
    exact .inl ⟨rfl, (List.cons.inj hlast).1.symm⟩
  · rw [List.concat_eq_append, ← List.cons_append, ← List.append_assoc] at h
    exact .inr ⟨rest, List.append_inj_left' h rfl⟩

theorem Key.text_inj {a b : Key} : a.text = b.text ↔ a = b :=
  ⟨fun h => by cases a; cases b; simp_all, fun h => by rw [h]⟩

namespace Store

theorem get_of_find? {s : Store} {key : Key} {g : Group} (h : s.find? key = some g)
    (now : Instant) : s.get key now = g := by
  simp [get, h]

theorem get_of_find?_none {s : Store} {key : Key} (h : s.find? key = none) (now : Instant) :
    s.get key now = .empty key now := by
  simp [get, h]

theorem find?_remove (s : Store) (key other : Key) :
    (s.remove key).1.find? other = if key = other then none else s.find? other := by
  simp only [remove, find?, Dictionary.get?_erase, Key.text_inj]

theorem add_ok {s s' : Store} {key : Key} {m : Message} {now : Instant} {g : Group}
    (h : s.add key m now = .ok (s', g)) :
    g = (s.get key now).add m now ∧ s'.capacity = s.capacity
      ∧ ∀ other, s'.find? other = if key = other then some g else s.find? other := by
  have hadd : s' = { s with groups := s.groups.insert key.text g }
      ∧ g = (s.get key now).add m now := by
    unfold add at h
    split at h
    · split_ifs at h
      simp only [Except.ok.injEq, Prod.mk.injEq] at h
      exact ⟨by rw [← h.1, ← h.2], h.2.symm⟩
    · simp only [Except.ok.injEq, Prod.mk.injEq] at h
      exact ⟨by rw [← h.1, ← h.2], h.2.symm⟩
  obtain ⟨rfl, hg⟩ := hadd
  refine ⟨hg, rfl, fun other => ?_⟩
  simp only [find?, Dictionary.get?_insert, Key.text_inj]

theorem add_unbounded {s : Store} (h : s.capacity = none) (key : Key) (m : Message)
    (now : Instant) : ∃ s', s.add key m now = .ok (s', (s.get key now).add m now) := by
  unfold add
  rw [h]
  exact ⟨_, rfl⟩

theorem removeUnchanged_of_unchanged {s : Store} {g : Group} (h : s.isUnchanged g = true) :
    s.removeUnchanged g = ((s.remove g.key).1, true) := by
  simp [removeUnchanged, h]

theorem removeUnchanged_of_changed {s : Store} {g : Group} (h : s.isUnchanged g = false) :
    s.removeUnchanged g = (s, false) := by
  simp [removeUnchanged, h]

theorem isUnchanged_iff {s : Store} {g : Group} :
    s.isUnchanged g = true ↔
      ∃ current, s.find? g.key = some current ∧ current.lastModified = g.lastModified := by
  unfold isUnchanged
  rcases s.find? g.key with _ | current <;> simp

theorem mem_stale {s : Store} {timeout : Nat} {now : Instant} {g : Group}
    (h : g ∈ s.stale timeout now) :
    timeout ≤ now - g.lastModified ∧ ∃ key, s.find? key = some g := by
  unfold stale at h
  obtain ⟨hmem, hidle⟩ := List.mem_filter.1 h
  obtain ⟨name, hname⟩ := (Dictionary.mem_values_iff _).1 hmem
  exact ⟨by simpa [Group.isIdleFor] using hidle, ⟨name⟩, hname⟩

end Store

namespace KeyLocks

/-- Locks that were asked for a key that nobody held, and gave it. -/
def Gives (l : KeyLocks) (key : Key) (l' : KeyLocks) : Prop :=
  (∀ e, l.find? key = some e → e.held = false) ∧ ∃ owner, l' = l.set key ⟨true, owner⟩

theorem find?_set (l : KeyLocks) (key other : Key) (e : LockEntry) :
    (l.set key e).find? other = if key = other then some e else l.find? other := by
  simp only [set, find?, Dictionary.get?_insert, Key.text_inj]

theorem find?_release_retire (l : KeyLocks) (key other : Key) :
    (l.release key true).find? other = if key = other then none else l.find? other := by
  simp only [release, if_true, find?, Dictionary.get?_erase, Key.text_inj]

theorem find?_release_keep (l : KeyLocks) (key other : Key) :
    (l.release key false).find? other
      = if key = other then (l.find? key).map ({ · with held := false }) else l.find? other := by
  unfold release
  rw [if_neg (by simp)]
  rcases h : l.find? key with _ | e
  · split_ifs with heq
    · simp [← heq, h]
    · rfl
  · simp only [find?_set, Option.map_some]

theorem find?_disown (l : KeyLocks) (owner : Owner) (key : Key) :
    (l.disown owner).find? key
      = (l.find? key).map
        fun e => if e.owner = some owner then { e with owner := none } else e := by
  simp only [disown, find?, Dictionary.get?_mapValues]

theorem gives_of_acquire? {l l' : KeyLocks} {key : Key} {owner : Option Owner}
    (h : l.acquire? key owner = some l') : l.Gives key l' := by
  unfold acquire? at h
  unfold Gives
  split at h
  · rename_i he
    exact ⟨by simp [he], _, (Option.some.inj h).symm⟩
  · rename_i e he
    split_ifs at h with hheld
    exact ⟨by simp_all, _, (Option.some.inj h).symm⟩

theorem gives_of_tryAcquire? {l l' : KeyLocks} {key : Key}
    (h : l.tryAcquire? key = some l') : l.Gives key l' := by
  unfold tryAcquire? at h
  unfold Gives
  split at h
  · rename_i he
    exact ⟨by simp [he], _, (Option.some.inj h).symm⟩
  · rename_i e he
    split_ifs at h with hheld
    exact ⟨by simp_all, _, (Option.some.inj h).symm⟩

theorem gives_of_tryAcquireOwned? {l l' : KeyLocks} {key : Key} {owner : Owner}
    (h : l.tryAcquireOwned? key owner = some l') : l.Gives key l' := by
  unfold tryAcquireOwned? at h
  unfold Gives
  split at h
  · rename_i he
    exact ⟨by simp [he], _, (Option.some.inj h).symm⟩
  · rename_i e he
    split_ifs at h with hheld
    exact ⟨by simp_all, _, (Option.some.inj h).symm⟩

theorem acquire?_of_free {l : KeyLocks} {key : Key} (owner : Option Owner)
    (h : ∀ e, l.find? key = some e → e.held = false) :
    ∃ l', l.acquire? key owner = some l' := by
  unfold acquire?
  rcases he : l.find? key with _ | e
  · exact ⟨_, rfl⟩
  · simp [h e he]

end KeyLocks

namespace Depot

/-- No operation is out of service. -/
def InService (d : Depot) : Prop := d.outages = ⟨none, none, none, none, none⟩

variable {d d' : Depot}

theorem InService.get (h : d.InService) (key : Key) (now : Instant) :
    d.get key now = .ok (d.store.get key now) := by
  unfold Depot.get
  rw [h]

theorem InService.add (h : d.InService) {key : Key} {m : Message} {now : Instant} {g : Group}
    (ha : d.add key m now = .ok (d', g)) :
    ∃ s, d.store.add key m now = .ok (s, g) ∧ d' = { d with store := s } := by
  have hadd : d.outages.add = none := by rw [h]
  simp only [Depot.add, hadd] at ha
  rcases hs : d.store.add key m now with e | ⟨s, g'⟩ <;> rw [hs] at ha <;> simp [Except.map] at ha
  exact ⟨s, by rw [ha.2], ha.1.symm⟩

theorem InService.remove (h : d.InService) (key : Key) :
    d.remove key = .ok ({ d with store := (d.store.remove key).1 }, d.store.find? key) := by
  unfold Depot.remove
  rw [h]
  rfl

theorem InService.register (h : d.InService) (p : Participant) :
    d.register p = .ok { d with participants := d.participants ++ [p] } := by
  unfold Depot.register
  rw [h]

theorem inService_empty (capacity : Option Nat) : (empty capacity).InService := rfl

end Depot

namespace Hub

variable {σ : Type}

/-- The handler behind an id. -/
def handler? (hub : Hub σ) (h : HandlerId) : Option (Handler σ) :=
  (hub.member? h).map Member.handler

def home? (hub : Hub σ) (h : HandlerId) : Option DepotId := (hub.handler? h).map Handler.depot

theorem handler?_of_member? {hub : Hub σ} {h : HandlerId} {m : Member σ}
    (hm : hub.member? h = some m) : hub.handler? h = some m.handler := by
  simp [handler?, hm]

theorem home?_of_handler? {hub : Hub σ} {h : HandlerId} {handler : Handler σ}
    (hh : hub.handler? h = some handler) : hub.home? h = some handler.depot := by
  simp [home?, hh]

theorem depot_setDepot (hub : Hub σ) {d : DepotId} (other : DepotId) (depot : Depot)
    (hd : d < hub.depots.length) :
    (hub.setDepot d depot).depot other = if d = other then depot else hub.depot other := by
  simp only [Hub.depot, setDepot, List.getElem?_set]
  by_cases h : d = other
  · subst h
    simp [hd]
  · simp [h]

@[simp] theorem length_depots_setDepot (hub : Hub σ) (d : DepotId) (depot : Depot) :
    (hub.setDepot d depot).depots.length = hub.depots.length := by
  simp [setDepot]

@[simp] theorem handler?_setDepot (hub : Hub σ) (d : DepotId) (depot : Depot) (h : HandlerId) :
    (hub.setDepot d depot).handler? h = hub.handler? h := rfl

@[simp] theorem handler?_refer (hub : Hub σ) (h other : HandlerId) :
    (hub.refer h).handler? other = hub.handler? other := by
  simp only [handler?, member?, refer, List.getElem?_modify]
  rcases hub.members[other]? with _ | m <;> by_cases he : h = other <;> simp [he]

@[simp] theorem handler?_unrefer (hub : Hub σ) (h other : HandlerId) :
    (hub.unrefer h).handler? other = hub.handler? other := by
  simp only [handler?, member?, unrefer, List.getElem?_modify]
  rcases hub.members[other]? with _ | m <;> by_cases he : h = other <;> simp [he]

@[simp] theorem depot_refer (hub : Hub σ) (h : HandlerId) (d : DepotId) :
    (hub.refer h).depot d = hub.depot d := rfl

@[simp] theorem depot_unrefer (hub : Hub σ) (h : HandlerId) (d : DepotId) :
    (hub.unrefer h).depot d = hub.depot d := rfl

theorem disown_of_handler? {hub : Hub σ} {h : HandlerId} {handler : Handler σ}
    (hh : hub.handler? h = some handler) :
    hub.disown h = hub.setDepot handler.depot ((hub.depot handler.depot).disown h) := by
  obtain ⟨m, hm, rfl⟩ := Option.map_eq_some_iff.1 hh
  simp [disown, hm]

theorem disown_of_handler?_none {hub : Hub σ} {h : HandlerId} (hh : hub.handler? h = none) :
    hub.disown h = hub := by
  simp [disown, Option.map_eq_none_iff.1 hh]

end Hub

end Collate
