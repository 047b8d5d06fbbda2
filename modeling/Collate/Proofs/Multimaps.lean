import Collate.Proofs.Depots
import Mathlib.Algebra.BigOperators.Group.Finset.Basic
import Mathlib.Data.List.Induction

/-!
# A store as a multimap

Asked one request after another, a depot answers as a map from keys to lists of messages that is
bounded by the sum of their lengths (`Depot.serves_as_multimap`). Callers who ask side by side are
covered, since each request takes effect at once: whatever comes of their requests is a list of
them. Under a key the map has the messages that were taken in since the key was removed last
(`Multimap.under_trail`).
-/

namespace Collate

/-- What a caller asks of a store. -/
inductive Store.Request where
  | get (key : Key)
  | add (key : Key) (m : Message)
  | remove (key : Key)
  | countGroups
  | countMessages

/-- What the caller is told, for stores whose groups are of a type `γ`. -/
inductive Store.Answer (γ : Type) where
  | got (r : Except StoreError γ)
  | added (r : Except StoreError γ)
  | removed (r : Except StoreError (Option γ))
  | count (n : Nat)

namespace Store.Answer

variable {γ δ : Type}

def map (f : γ → δ) : Store.Answer γ → Store.Answer δ
  | .got r => .got (r.map f)
  | .added r => .added (r.map f)
  | .removed r => .removed (r.map (Option.map f))
  | .count n => .count n

end Store.Answer

namespace Store.Request

def removes (key : Key) : Store.Request → Bool
  | .remove other => other == key
  | _ => false

variable {γ : Type}

/-- The message that a request brought under a key, if it was taken in. -/
def brought? (key : Key) : Store.Request × Store.Answer γ → Option Message
  | (.add other m, .added (.ok _)) => if other = key then some m else none
  | _ => none

/-- The messages taken in under a key after the last time it was removed. -/
def since (key : Key) (trail : List (Store.Request × Store.Answer γ)) : List Message :=
  ((trail.reverse.takeWhile fun e => !e.1.removes key).reverse).filterMap (brought? key)

end Store.Request

/-! ## The map -/

/-- Lists of messages under finitely many keys; the keys listed are those with messages. -/
structure Multimap where
  under : Key → List Message
  keys : Finset Key
  mem_keys : ∀ key, key ∈ keys ↔ under key ≠ []

namespace Multimap

def empty : Multimap := ⟨fun _ => [], ∅, by simp⟩

def total (m : Multimap) : Nat := ∑ key ∈ m.keys, (m.under key).length

/-- Puts a list under a key, in place of the one that is there. -/
def put (m : Multimap) (key : Key) (l : List Message) : Multimap where
  under := Function.update m.under key l
  keys := if l = [] then m.keys.erase key else insert key m.keys
  mem_keys other := by
    by_cases hother : other = key
    · subst hother
      split_ifs with hl <;> simp [hl]
    · split_ifs with hl <;> simp [hother, m.mem_keys]

def accept (m : Multimap) (key : Key) (message : Message) :
    Multimap × Store.Answer (Key × List Message) :=
  (m.put key (m.under key ++ [message]), .added (.ok (key, m.under key ++ [message])))

/-- A list as it is handed out on removal: none at all if there is nothing in it. -/
def shown? (m : Multimap) (key : Key) : Option (Key × List Message) :=
  if m.under key = [] then none else some (key, m.under key)

/-- How a map with a bound on its messages serves a request. -/
def serve (capacity : Option Nat) (m : Multimap) :
    Store.Request → Multimap × Store.Answer (Key × List Message)
  | .get key => (m, .got (.ok (key, m.under key)))
  | .add key message =>
    match capacity with
    | none => m.accept key message
    | some c =>
      if m.total < c then m.accept key message else (m, .added (.error (.capacityExceeded c)))
  | .remove key => (m.put key [], .removed (.ok (m.shown? key)))
  | .countGroups => (m, .count m.keys.card)
  | .countMessages => (m, .count m.total)

/-- Serves requests in turn, and keeps each with its answer. -/
def trail (capacity : Option Nat) (m : Multimap) :
    List Store.Request → Multimap × List (Store.Request × Store.Answer (Key × List Message))
  | [] => (m, [])
  | r :: rest =>
    let (m', answer) := m.serve capacity r
    let (m'', later) := m'.trail capacity rest
    (m'', (r, answer) :: later)

end Multimap

/-! ## The depot -/

/-- A group without its time. -/
def Group.entry (g : Group) : Key × List Message := (g.key, g.messages)

namespace Depot

/-- How a depot serves a request, at a given time. -/
def serve (d : Depot) (r : Store.Request) (now : Instant) : Depot × Store.Answer Group :=
  match r with
  | .get key => (d, .got (d.get key now))
  | .add key m =>
    match d.add key m now with
    | .ok (d', g) => (d', .added (.ok g))
    | .error e => (d, .added (.error e))
  | .remove key =>
    match d.remove key with
    | .ok (d', g) => (d', .removed (.ok g))
    | .error e => (d, .removed (.error e))
  | .countGroups => (d, .count d.store.groupCount)
  | .countMessages => (d, .count d.store.messageCount)

/-- Serves requests at their times, and keeps each with its answer. -/
def trail (d : Depot) :
    List (Store.Request × Instant) → Depot × List (Store.Request × Store.Answer Group)
  | [] => (d, [])
  | (r, now) :: rest =>
    let (d', answer) := d.serve r now
    let (d'', later) := d'.trail rest
    (d'', (r, answer) :: later)

/-- A depot in service whose groups are the lists of a map. -/
structure Shows (d : Depot) (capacity : Option Nat) (m : Multimap) : Prop where
  service : d.InService
  room : d.store.capacity = capacity
  find : ∀ key, (d.store.find? key).map Group.entry = m.shown? key

end Depot

/-! ## Sums over the keys -/

namespace Multimap

variable (m : Multimap) (key : Key) (l : List Message)

/-- Keys without messages may be counted as well. -/
theorem total_eq_sum {keys : Finset Key} (h : m.keys ⊆ keys) :
    m.total = ∑ key ∈ keys, (m.under key).length := by
  refine Finset.sum_subset h fun key _ hkey => ?_
  rw [m.mem_keys, not_not] at hkey
  simp [hkey]

/-- The total after a list was put under a key, where the one it replaces counted before. -/
theorem total_put : (m.put key l).total + (m.under key).length = m.total + l.length := by
  have hput : (m.put key l).keys ⊆ insert key (m.keys.erase key) := by
    intro other
    simp only [put]
    split_ifs <;> by_cases hother : other = key <;> simp [hother]
  have hkeys : m.keys ⊆ insert key (m.keys.erase key) := by
    intro other
    by_cases hother : other = key <;> simp [hother]
  have hothers : ∑ other ∈ m.keys.erase key, ((m.put key l).under other).length
      = ∑ other ∈ m.keys.erase key, (m.under other).length := by
    refine Finset.sum_congr rfl fun other hother => ?_
    simp [put, Finset.ne_of_mem_erase hother]
  rw [total_eq_sum _ hput, total_eq_sum _ hkeys, Finset.sum_insert (Finset.notMem_erase _ _),
    Finset.sum_insert (Finset.notMem_erase _ _), hothers]
  simp only [put, Function.update_self]
  omega

theorem shown?_put (other : Key) : (m.put key l).shown? other
    = if key = other then (if l = [] then none else some (key, l)) else m.shown? other := by
  by_cases hother : other = key
  · subst hother
    simp [shown?, put]
  · simp [shown?, put, hother, Ne.symm hother]

theorem shown?_eq_none : m.shown? key = none ↔ m.under key = [] := by
  simp [shown?]

theorem shown?_getD : (m.shown? key).getD (key, []) = (key, m.under key) := by
  unfold shown?
  split_ifs with h <;> simp [h]

/-- A bound that holds is kept by whatever is asked. -/
theorem total_serve_le {m : Multimap} {c : Nat} (h : m.total ≤ c) (r : Store.Request) :
    (m.serve (some c) r).1.total ≤ c := by
  cases r with
  | get | countGroups | countMessages => exact h
  | add key message =>
    simp only [serve]
    split_ifs with hroom
    · have := m.total_put key (m.under key ++ [message])
      simp only [List.length_append, List.length_singleton] at this
      simp only [accept]
      omega
    · exact h
  | remove key =>
    have := m.total_put key []
    simp only [List.length_nil] at this
    simp only [serve]
    omega

theorem total_trail_le {c : Nat} (rs : List Store.Request) {m : Multimap} (h : m.total ≤ c) :
    (m.trail (some c) rs).1.total ≤ c := by
  induction rs generalizing m with
  | nil => exact h
  | cons r rest ih => exact ih (total_serve_le h r)

theorem trail_append (capacity : Option Nat) (rs later : List Store.Request) (m : Multimap) :
    m.trail capacity (rs ++ later) = (((m.trail capacity rs).1.trail capacity later).1,
      (m.trail capacity rs).2 ++ ((m.trail capacity rs).1.trail capacity later).2) := by
  induction rs generalizing m with
  | nil => rfl
  | cons r rest ih => simp only [List.cons_append, trail, ih]

end Multimap

section Since

variable {γ : Type}

theorem Store.Request.since_snoc (key : Key) (trail : List (Store.Request × Store.Answer γ))
    (e : Store.Request × Store.Answer γ) :
    since key (trail ++ [e])
      = if e.1.removes key then [] else since key trail ++ (brought? key e).toList := by
  unfold since
  rw [List.reverse_append, List.reverse_singleton, List.singleton_append, List.takeWhile_cons]
  cases hr : e.1.removes key with
  | true => simp
  | false =>
    rcases hb : brought? key e with _ | message <;> simp [List.filterMap_append, hb]

/-- What was taken in does not depend on how groups are shown. -/
theorem Store.Request.since_map {δ : Type} (f : γ → δ) (key : Key)
    (trail : List (Store.Request × Store.Answer γ)) :
    since key (trail.map (Prod.map id (Store.Answer.map f))) = since key trail := by
  have hbrought : ∀ e : Store.Request × Store.Answer γ,
      brought? key (Prod.map id (Store.Answer.map f) e) = brought? key e := by
    rintro ⟨r, answer⟩
    cases r <;> rcases answer with (_ | _) | (_ | _) | _ | _ <;> rfl
  simp only [since, ← List.map_reverse, List.takeWhile_map, List.filterMap_map]
  exact List.filterMap_congr fun e _ => hbrought e

end Since

/-- The map has under a key what was taken in under it since it was removed last. -/
theorem Multimap.under_trail (capacity : Option Nat) (rs : List Store.Request) (key : Key) :
    (empty.trail capacity rs).1.under key
      = Store.Request.since key (empty.trail capacity rs).2 := by
  induction rs using List.reverseRecOn with
  | nil => rfl
  | append_singleton rs r ih =>
    simp only [trail_append, trail, Store.Request.since_snoc, ← ih]
    generalize (empty.trail capacity rs).1 = m
    cases r with
    | get | countGroups | countMessages =>
      simp [serve, Store.Request.removes, Store.Request.brought?]
    | remove other =>
      by_cases hother : other = key
      · simp [serve, put, Store.Request.removes, hother]
      · simp [serve, put, Store.Request.removes, Store.Request.brought?, hother, Ne.symm hother]
    | add other message =>
      have haccept : (m.accept other message).1.under key
          = m.under key ++ (Store.Request.brought? key
            (.add other message, (m.accept other message).2)).toList := by
        by_cases hother : other = key
        · simp [accept, put, Store.Request.brought?, hother]
        · simp [accept, put, Store.Request.brought?, hother, Ne.symm hother]
      simp only [serve, Store.Request.removes, Bool.false_eq_true, if_false]
      split
      · exact haccept
      · split_ifs
        · exact haccept
        · simp [Store.Request.brought?]

/-! ## What a depot shows -/

namespace Store

theorem isSome_find?_iff (s : Store) (key : Key) :
    (s.find? key).isSome ↔ key ∈ s.groups.names.map Key.mk := by
  rw [find?, ← Dictionary.mem_names_iff, List.mem_map]
  refine ⟨fun h => ⟨key.text, h, rfl⟩, fun h => ?_⟩
  obtain ⟨name, hname, rfl⟩ := h
  exact hname

variable {s : Store} {c : Nat}

theorem add_of_lt (hc : s.capacity = some c) (hroom : s.messageCount < c) (key : Key)
    (m : Message) (now : Instant) :
    ∃ s', s.add key m now = .ok (s', (s.get key now).add m now) := by
  unfold add
  rw [hc]
  exact ⟨_, if_neg (Nat.not_le.2 hroom)⟩

theorem add_of_le (hc : s.capacity = some c) (hfull : c ≤ s.messageCount) (key : Key)
    (m : Message) (now : Instant) : s.add key m now = .error (.capacityExceeded c) := by
  unfold add
  rw [hc]
  exact if_pos hfull

end Store

theorem Depot.InService.add_eq {d : Depot} (h : d.InService) (key : Key) (m : Message)
    (now : Instant) :
    d.add key m now = (d.store.add key m now).map fun (s, g) => ({ d with store := s }, g) := by
  unfold Depot.add
  rw [h]

namespace Depot.Shows

variable {d : Depot} {capacity : Option Nat} {m : Multimap}

theorem keys (h : d.Shows capacity m) :
    m.keys = (d.store.groups.names.map Key.mk).toFinset := by
  ext key
  rw [List.mem_toFinset, ← Store.isSome_find?_iff, m.mem_keys, ← not_iff_not, not_not,
    ← m.shown?_eq_none, ← h.find]
  simp

theorem nodup_keys (d : Depot) : (d.store.groups.names.map Key.mk).Nodup :=
  d.store.groups.nodup_names.map fun _ _ h => congrArg Key.text h

theorem groupCount (h : d.Shows capacity m) : d.store.groupCount = m.keys.card := by
  rw [h.keys, List.toFinset_card_of_nodup (nodup_keys d)]
  simp [Store.groupCount, Dictionary.size, Dictionary.names]

theorem messageCount (h : d.Shows capacity m) : d.store.messageCount = m.total := by
  have hrow : ∀ row ∈ d.store.groups.rows, row.2.size = (m.under ⟨row.1⟩).length := by
    intro row hrow
    have hfind : d.store.find? ⟨row.1⟩ = some row.2 := d.store.groups.mem_rows_iff.1 hrow
    have hentry : some row.2.entry = m.shown? ⟨row.1⟩ := by rw [← h.find, hfind, Option.map_some]
    have hunder := m.shown?_getD ⟨row.1⟩
    rw [← hentry] at hunder
    exact congrArg (List.length ∘ Prod.snd) hunder
  rw [Multimap.total, h.keys, List.sum_toFinset _ (nodup_keys d)]
  simp only [Store.messageCount, Dictionary.values, Dictionary.names, List.map_map,
    ← List.sum_eq_foldr]
  exact congrArg List.sum (List.map_congr_left hrow)

theorem get (h : d.Shows capacity m) (key : Key) (now : Instant) :
    (d.store.get key now).entry = (key, m.under key) := by
  rw [← m.shown?_getD, ← h.find]
  unfold Store.get
  cases d.store.find? key <;> rfl

/-- What there is after a message found room. -/
theorem accept (h : d.Shows capacity m) {key : Key} {message : Message} {now : Instant}
    {s : Store} {g : Group} (hadd : d.store.add key message now = .ok (s, g)) :
    Depot.Shows { d with store := s } capacity (m.accept key message).1
      ∧ (Store.Answer.added (.ok g)).map Group.entry = (m.accept key message).2 := by
  obtain ⟨rfl, hroom, hfind⟩ := Store.add_ok hadd
  have hentry : ((d.store.get key now).add message now).entry
      = (key, m.under key ++ [message]) := by
    obtain ⟨hkey, hunder⟩ := Prod.mk.inj (h.get key now)
    simp only [Group.entry, Group.add, hkey, hunder]
  refine ⟨⟨h.service, hroom.trans h.room, fun other => ?_⟩, ?_⟩
  · rw [Multimap.accept, Multimap.shown?_put, hfind, ← h.find]
    split_ifs with hother hnil
    · simp at hnil
    · rw [Option.map_some, hentry]
    · rfl
  · simp only [Store.Answer.map, Except.map, hentry, Multimap.accept]

/-- A depot serves a request as the map does, and shows the map that comes of it. -/
theorem serve (h : d.Shows capacity m) (r : Store.Request) (now : Instant) :
    (d.serve r now).1.Shows capacity (m.serve capacity r).1
      ∧ (d.serve r now).2.map Group.entry = (m.serve capacity r).2 := by
  cases r with
  | get key =>
    refine ⟨h, ?_⟩
    simp only [Depot.serve, Multimap.serve, h.service.get, Store.Answer.map, Except.map, h.get]
  | add key message =>
    simp only [Depot.serve, Multimap.serve, h.service.add_eq]
    cases capacity with
    | none =>
      obtain ⟨s, hs⟩ := Store.add_unbounded h.room key message now
      rw [hs]
      exact h.accept hs
    | some c =>
      by_cases hroom : m.total < c
      · obtain ⟨s, hs⟩ := Store.add_of_lt h.room (h.messageCount ▸ hroom) key message now
        simp only [hs, if_pos hroom]
        exact h.accept hs
      · have hfull : c ≤ d.store.messageCount := h.messageCount ▸ Nat.le_of_not_lt hroom
        simp only [Store.add_of_le h.room hfull, if_neg hroom]
        exact ⟨h, rfl⟩
  | remove key =>
    simp only [Depot.serve, Multimap.serve, h.service.remove]
    refine ⟨⟨h.service, h.room, fun other => ?_⟩, ?_⟩
    · rw [Store.find?_remove, Multimap.shown?_put, ← h.find]
      simp only [if_true]
      split_ifs <;> rfl
    · simp only [Store.Answer.map, Except.map, h.find]
  | countGroups => exact ⟨h, congrArg Store.Answer.count h.groupCount⟩
  | countMessages => exact ⟨h, congrArg Store.Answer.count h.messageCount⟩

theorem trail (rs : List (Store.Request × Instant)) (h : d.Shows capacity m) :
    (d.trail rs).1.Shows capacity (m.trail capacity (rs.map Prod.fst)).1
      ∧ (d.trail rs).2.map (Prod.map id (Store.Answer.map Group.entry))
        = (m.trail capacity (rs.map Prod.fst)).2 := by
  induction rs generalizing d m with
  | nil => exact ⟨h, rfl⟩
  | cons r rest ih =>
    obtain ⟨hshows, hanswer⟩ := h.serve r.1 r.2
    obtain ⟨hlast, hlater⟩ := ih hshows
    refine ⟨hlast, ?_⟩
    simp only [Depot.trail, Multimap.trail, List.map_cons, Prod.map_apply, id_eq, hanswer]
    exact congrArg _ hlater

end Depot.Shows

namespace Depot

theorem shows_empty (capacity : Option Nat) : (empty capacity).Shows capacity .empty :=
  ⟨inService_empty capacity, rfl, fun _ => rfl⟩

theorem trail_append (rs later : List (Store.Request × Instant)) (d : Depot) :
    d.trail (rs ++ later) = (((d.trail rs).1.trail later).1,
      (d.trail rs).2 ++ ((d.trail rs).1.trail later).2) := by
  induction rs generalizing d with
  | nil => rfl
  | cons r rest ih => simp only [List.cons_append, trail, ih]

/-- Locks, register and outages of a depot are no matter of these requests. -/
theorem serve_eq (d : Depot) (r : Store.Request) (now : Instant) :
    (d.serve r now).1 = { d with store := (d.serve r now).1.store } := by
  cases r with
  | get | countGroups | countMessages => rfl
  | add key m =>
    simp only [serve, add]
    rcases d.outages.add with _ | reason
    · rcases d.store.add key m now with e | ⟨s, g⟩ <;> rfl
    · rfl
  | remove key =>
    simp only [serve, remove]
    rcases d.outages.remove with _ | reason <;> rfl

theorem trail_eq (rs : List (Store.Request × Instant)) (d : Depot) :
    (d.trail rs).1 = { d with store := (d.trail rs).1.store } := by
  induction rs generalizing d with
  | nil => rfl
  | cons r rest ih =>
    rw [trail, ih, serve_eq]

/-- Only a removal and an addition that finds room change anything. -/
theorem serve_eq_self (d : Depot) {r : Store.Request} {now : Instant} (hr : ∀ key, r ≠ .remove key)
    (hadd : ∀ g, (d.serve r now).2 ≠ .added (.ok g)) : (d.serve r now).1 = d := by
  cases r with
  | get | countGroups | countMessages => rfl
  | add key m =>
    simp only [serve] at hadd ⊢
    rcases hd : d.add key m now with e | ⟨d', g⟩
    · rfl
    · rw [hd] at hadd
      exact absurd rfl (hadd g)
  | remove key => exact absurd rfl (hr key)

/-- From its opening on a depot is a map from keys to the messages that were taken in since the key
was removed last, with as many messages in all as there is room for. It answers every request as
that map does, the answers do not change with what is asked later, and a request that is refused or
only asks changes nothing. -/
theorem serves_as_multimap (capacity : Option Nat) (rs : List (Store.Request × Instant)) :
    let d := ((empty capacity).trail rs).1
    let answered := ((empty capacity).trail rs).2
    let m := (Multimap.empty.trail capacity (rs.map Prod.fst)).1
    answered.map (Prod.map id (Store.Answer.map Group.entry))
        = (Multimap.empty.trail capacity (rs.map Prod.fst)).2
      ∧ (∀ key, (d.store.find? key).map Group.entry = m.shown? key)
      ∧ (∀ key, m.under key = Store.Request.since key answered)
      ∧ d.store.groupCount = m.keys.card
      ∧ d.store.messageCount = m.total
      ∧ (∀ c, capacity = some c → d.store.messageCount ≤ c)
      ∧ d = { empty capacity with store := d.store }
      ∧ (∀ later, ((empty capacity).trail (rs ++ later)).2 = answered ++ (d.trail later).2)
      ∧ ∀ r now, (∀ key, r ≠ .remove key) → (∀ g, (d.serve r now).2 ≠ .added (.ok g)) →
        (d.serve r now).1 = d := by
  obtain ⟨hshows, hanswers⟩ := (shows_empty capacity).trail rs
  refine ⟨hanswers, hshows.find, fun key => ?_, hshows.groupCount, hshows.messageCount, ?_,
    trail_eq rs _, fun later => ?_, fun r now => serve_eq_self _⟩
  · rw [Multimap.under_trail, ← hanswers, Store.Request.since_map]
  · rintro c rfl
    rw [hshows.messageCount]
    exact Multimap.total_trail_le _ (Nat.zero_le c)
  · rw [trail_append]

end Depot

end Collate
