import Collate.Proofs.Depots
import Mathlib.Logic.Function.Basic

/-!
# Shelves

A depot seen key by key: the group it stores and the entry it has in the lock table. A call that
holds a key knows something of the group under it (`Sight`), and deals with the shelf in a few ways
only (`Deal`): it takes a free key, learns, adds, removes, and frees the key again. Whatever the
calls are, the shelf stays sound under such deals (`Sound.deal`): no two calls hold one key, what a
holder knows is true, an entry that nobody holds guards a group, and a group has an entry.
-/

namespace Collate

/-- What a depot has for each key. -/
structure Shelf where
  group? : Key → Option Group
  lock? : Key → Option LockEntry

namespace Shelf

def get (s : Shelf) (key : Key) (now : Instant) : Group := (s.group? key).getD (.empty key now)

/-- Every group has a message and stands under its own key. -/
def Tidy (s : Shelf) : Prop := ∀ key g, s.group? key = some g → g.key = key ∧ g.messages ≠ []

def setGroup (s : Shelf) (key : Key) (g : Option Group) : Shelf :=
  { s with group? := Function.update s.group? key g }

def setLock (s : Shelf) (key : Key) (e : Option LockEntry) : Shelf :=
  { s with lock? := Function.update s.lock? key e }

@[simp] theorem setGroup_group? (s : Shelf) (key other : Key) (g : Option Group) :
    (s.setGroup key g).group? other = if other = key then g else s.group? other := by
  simp only [setGroup, Function.update_apply]

@[simp] theorem setGroup_lock? (s : Shelf) (key other : Key) (g : Option Group) :
    (s.setGroup key g).lock? other = s.lock? other := rfl

@[simp] theorem setLock_lock? (s : Shelf) (key other : Key) (e : Option LockEntry) :
    (s.setLock key e).lock? other = if other = key then e else s.lock? other := by
  simp only [setLock, Function.update_apply]

@[simp] theorem setLock_group? (s : Shelf) (key other : Key) (e : Option LockEntry) :
    (s.setLock key e).group? other = s.group? other := rfl

theorem get_of_group? {s : Shelf} {key : Key} {g : Group} (h : s.group? key = some g)
    (now : Instant) : s.get key now = g := by
  simp [get, h]

theorem get_of_none {s : Shelf} {key : Key} (h : s.group? key = none) (now : Instant) :
    s.get key now = .empty key now := by
  simp [get, h]

/-- On a tidy shelf an empty group is one that is not there. -/
theorem Tidy.isEmpty_get {s : Shelf} (ht : s.Tidy) (key : Key) (now : Instant) :
    (s.get key now).isEmpty = (s.group? key).isNone := by
  rcases h : s.group? key with _ | g
  · rw [get_of_none h]
    rfl
  · rw [get_of_group? h]
    simpa [Group.isEmpty] using (ht key g h).2

end Shelf

namespace Depot

variable {d d' : Depot}

def shelf (d : Depot) : Shelf := ⟨d.store.find?, d.locks.find?⟩

theorem shelf_gives {key : Key} {locks : KeyLocks} (h : d.locks.Gives key locks) :
    (∀ e, d.shelf.lock? key = some e → e.held = false)
      ∧ ∃ owner, ({ d with locks := locks } : Depot).shelf
        = d.shelf.setLock key (some ⟨true, owner⟩) := by
  obtain ⟨hfree, owner, rfl⟩ := h
  refine ⟨hfree, owner, ?_⟩
  simp only [shelf, Shelf.setLock, Shelf.mk.injEq, true_and]
  funext other
  simp only [KeyLocks.find?_set, Function.update_apply, eq_comm]

theorem shelf_add (hd : d.InService) {key : Key} {m : Message} {now : Instant} {g : Group}
    (h : d.add key m now = .ok (d', g)) :
    g = (d.shelf.get key now).add m now ∧ d'.shelf = d.shelf.setGroup key (some g) := by
  obtain ⟨s, hs, rfl⟩ := hd.add h
  obtain ⟨hg, -, hfind⟩ := Store.add_ok hs
  refine ⟨hg, ?_⟩
  simp only [shelf, Shelf.setGroup, Shelf.mk.injEq, and_true]
  funext other
  simp only [hfind, Function.update_apply, eq_comm]

theorem shelf_remove (d : Depot) (key : Key) :
    ({ d with store := (d.store.remove key).1 } : Depot).shelf = d.shelf.setGroup key none := by
  simp only [shelf, Shelf.setGroup, Shelf.mk.injEq, and_true]
  funext other
  simp only [Store.find?_remove, Function.update_apply, eq_comm]

/-- The entry of a key that is let go of. -/
def freed (retire : Bool) (e : Option LockEntry) : Option LockEntry :=
  if retire then none else e.map ({ · with held := false })

theorem shelf_release (d : Depot) (key : Key) (retire : Bool) :
    (d.release key retire).shelf = d.shelf.setLock key (freed retire (d.shelf.lock? key)) := by
  simp only [shelf, release, Shelf.setLock, Shelf.mk.injEq, true_and]
  funext other
  cases retire
  · simp only [KeyLocks.find?_release_keep, Function.update_apply, eq_comm, freed,
      Bool.false_eq_true, if_false]
  · simp only [KeyLocks.find?_release_retire, Function.update_apply, eq_comm, freed, if_true]

theorem shelf_disown (d : Depot) (owner : Owner) :
    ∃ f : LockEntry → LockEntry, (∀ e, (f e).held = e.held)
      ∧ (d.disown owner).shelf = ⟨d.shelf.group?, fun key => (d.shelf.lock? key).map f⟩ := by
  refine ⟨fun e => if e.owner = some owner then { e with owner := none } else e, fun e => ?_, ?_⟩
  · dsimp only
    split_ifs <;> rfl
  · simp only [shelf, disown, Shelf.mk.injEq, true_and]
    funext key
    rw [KeyLocks.find?_disown]

end Depot

/-- What a call that holds a key knows of the group under it. -/
inductive Sight where
  | blank
  | seen (g : Group)
  /-- Done with the group; the entry of the key goes if there is no group left. -/
  | done (retire : Bool)

def Sight.Fits (stored : Option Group) : Sight → Prop
  | .blank => True
  | .seen g => stored = some g
  | .done retire => stored.isNone = retire

/-- An addition to a shelf or a removal from it, as it is written down. -/
inductive Entry where
  | put (key : Key) (m : Message) (time : Instant)
  | took (key : Key) (g : Option Group)

/-- What a step makes of a shelf and of the hold that the acting call has on it. -/
inductive Deal (now : Instant) (s : Shelf) :
    Option (Key × Sight) → Option Entry → Shelf → Option (Key × Sight) → Prop
  | quiet {x} : Deal now s x none s x
  | learns {key x y} : (s.Tidy → x.Fits (s.group? key) → y.Fits (s.group? key)) →
      Deal now s (some (key, x)) none s (some (key, y))
  | takes {key owner} : (∀ e, s.lock? key = some e → e.held = false) →
      Deal now s none none (s.setLock key (some ⟨true, owner⟩)) (some (key, .blank))
  | adds {key m g} : g = (s.get key now).add m now →
      Deal now s (some (key, .blank)) (some (.put key m now)) (s.setGroup key (some g))
        (some (key, .seen g))
  | removes {key x} :
      Deal now s (some (key, x)) (some (.took key (s.group? key))) (s.setGroup key none)
        (some (key, .done true))
  | frees {key retire} :
      Deal now s (some (key, .done retire)) none
        (s.setLock key (Depot.freed retire (s.lock? key))) none
  | disowns {x f} : (∀ e : LockEntry, (f e).held = e.held) →
      Deal now s x none ⟨s.group?, fun key => (s.lock? key).map f⟩ x

/-- A deal that is not written down leaves the groups as they are. -/
theorem Deal.group?_eq {now : Instant} {s s' : Shelf} {x x' : Option (Key × Sight)}
    (h : Deal now s x none s' x') : s'.group? = s.group? := by
  cases h <;> rfl

/-- A shelf and the holds that calls have on it, each call at its place. -/
structure Sound {ι : Type} (s : Shelf) (grips : ι → Option (Key × Sight)) : Prop where
  apart : ∀ p q key x y, grips p = some (key, x) → grips q = some (key, y) → p = q
  held : ∀ p key x, grips p = some (key, x) → ∃ e, s.lock? key = some e ∧ e.held = true
  fits : ∀ p key x, grips p = some (key, x) → x.Fits (s.group? key)
  owned : ∀ key e, s.lock? key = some e → e.held = true → ∃ p x, grips p = some (key, x)
  resting : ∀ key e, s.lock? key = some e → e.held = false → (s.group? key).isSome
  guarded : ∀ key, (s.group? key).isSome → (s.lock? key).isSome
  tidy : s.Tidy

namespace Sound

variable {ι : Type} {now : Instant} {s s' : Shelf} {grips : ι → Option (Key × Sight)} {p : ι}
  {x x' : Option (Key × Sight)} {e : Option Entry}

theorem empty (hg : ∀ key, s.group? key = none) (he : ∀ key, s.lock? key = none) :
    Sound s (fun _ : ι => none) := by
  constructor <;> simp [hg, he, Shelf.Tidy]

theorem disown (hs : Sound s grips) {f : LockEntry → LockEntry} (hf : ∀ e, (f e).held = e.held) :
    Sound ⟨s.group?, fun key => (s.lock? key).map f⟩ grips where
  apart := hs.apart
  held q k y hq := by
    obtain ⟨e, he, hheld⟩ := hs.held q k y hq
    exact ⟨f e, by simp [he], by rw [hf, hheld]⟩
  fits := hs.fits
  owned k e' hk hh := by
    obtain ⟨e, he, rfl⟩ := Option.map_eq_some_iff.1 hk
    exact hs.owned k e he (hf e ▸ hh)
  resting k e' hk hh := by
    obtain ⟨e, he, rfl⟩ := Option.map_eq_some_iff.1 hk
    exact hs.resting k e he (hf e ▸ hh)
  guarded k hk := by simpa using hs.guarded k hk
  tidy := hs.tidy

variable [DecidableEq ι]

theorem keep (hs : Sound s grips) {key : Key} {a b : Sight} (hp : grips p = some (key, a))
    (hfits : b.Fits (s'.group? key)) (htidy : s'.Tidy)
    (hentry : ∀ k, s'.lock? k = s.lock? k)
    (hgroup : ∀ k, k ≠ key → s'.group? k = s.group? k) :
    Sound s' (Function.update grips p (some (key, b))) := by
  -- who holds a key afterwards held it before
  have hold : ∀ q k z, Function.update grips p (some (key, b)) q = some (k, z) →
      ∃ z', grips q = some (k, z') ∧ (q = p ∧ k = key ∧ z = b ∨ q ≠ p ∧ z = z') := by
    intro q k z hq
    rw [Function.update_apply] at hq
    split_ifs at hq with heq
    · cases hq
      exact ⟨a, heq ▸ hp, .inl ⟨heq, rfl, rfl⟩⟩
    · exact ⟨z, hq, .inr ⟨heq, rfl⟩⟩
  obtain ⟨e, he, hheld⟩ := hs.held p key a hp
  refine ⟨fun q r k y z hq hr => ?_, fun q k y hq => ?_, fun q k y hq => ?_, fun k e' hk hh => ?_,
    fun k e' hk hh => ?_, fun k hk => ?_, htidy⟩
  · obtain ⟨y', hy, -⟩ := hold q k y hq
    obtain ⟨z', hz, -⟩ := hold r k z hr
    exact hs.apart q r k y' z' hy hz
  · obtain ⟨y', hy, -⟩ := hold q k y hq
    rw [hentry]
    exact hs.held q k y' hy
  · obtain ⟨y', hy, ⟨rfl, rfl, rfl⟩ | ⟨hne, rfl⟩⟩ := hold q k y hq
    · exact hfits
    · rw [hgroup k fun hk => hne (hs.apart q p key y a (hk ▸ hy) hp)]
      exact hs.fits q k y hy
  · rw [hentry] at hk
    obtain ⟨q, y, hq⟩ := hs.owned k e' hk hh
    by_cases heq : q = p
    · subst heq
      rw [hp] at hq
      cases hq
      exact ⟨q, b, Function.update_self ..⟩
    · exact ⟨q, y, by rw [Function.update_of_ne heq, hq]⟩
  · rw [hentry] at hk
    rw [hgroup k]
    · exact hs.resting k e' hk hh
    · rintro rfl
      rw [he] at hk
      cases hk
      rw [hheld] at hh
      cases hh
  · rw [hentry]
    by_cases heq : k = key
    · rw [heq, he]
      rfl
    · exact hs.guarded k (hgroup k heq ▸ hk)

/-- A call that takes a free key is the only one to hold it. -/
theorem take (hs : Sound s grips) {key : Key} {owner : Option Owner} (hp : grips p = none)
    (hfree : ∀ e, s.lock? key = some e → e.held = false) :
    Sound (s.setLock key (some ⟨true, owner⟩))
      (Function.update grips p (some (key, .blank))) := by
  have hnobody : ∀ q y, grips q ≠ some (key, y) := by
    intro q y hq
    obtain ⟨e, he, hheld⟩ := hs.held q key y hq
    rw [hfree e he] at hheld
    cases hheld
  have hold : ∀ q k z, Function.update grips p (some (key, Sight.blank)) q = some (k, z) →
      (q = p ∧ k = key ∧ z = .blank) ∨ (grips q = some (k, z) ∧ k ≠ key) := by
    intro q k z hq
    rw [Function.update_apply] at hq
    split_ifs at hq with heq
    · cases hq
      exact .inl ⟨heq, rfl, rfl⟩
    · exact .inr ⟨hq, fun hk => hnobody q z (hk ▸ hq)⟩
  refine ⟨fun q r k y z hq hr => ?_, fun q k y hq => ?_, fun q k y hq => ?_, fun k e hk hh => ?_,
    fun k e hk hh => ?_, fun k hk => ?_, hs.tidy⟩
  · rcases hold q k y hq with ⟨rfl, rfl, -⟩ | ⟨hq, hne⟩ <;>
      rcases hold r k z hr with ⟨rfl, hk, -⟩ | ⟨hr, hne'⟩
    · rfl
    · exact absurd rfl hne'
    · exact absurd hk hne
    · exact hs.apart q r k y z hq hr
  · rw [Shelf.setLock_lock?]
    rcases hold q k y hq with ⟨-, rfl, -⟩ | ⟨hq, hne⟩
    · exact ⟨_, if_pos rfl, rfl⟩
    · rw [if_neg hne]
      exact hs.held q k y hq
  · rcases hold q k y hq with ⟨-, -, rfl⟩ | ⟨hq, -⟩
    · trivial
    · exact hs.fits q k y hq
  · rw [Shelf.setLock_lock?] at hk
    split_ifs at hk with heq
    · exact ⟨p, .blank, by rw [Function.update_self, heq]⟩
    · obtain ⟨q, y, hq⟩ := hs.owned k e hk hh
      refine ⟨q, y, ?_⟩
      rw [Function.update_of_ne, hq]
      rintro rfl
      rw [hp] at hq
      cases hq
  · rw [Shelf.setLock_lock?] at hk
    split_ifs at hk
    · cases hk
      cases hh
    · exact hs.resting k e hk hh
  · rw [Shelf.setLock_lock?]
    split_ifs
    · rfl
    · exact hs.guarded k hk

/-- A call that frees its key leaves an entry exactly if it leaves a group. -/
theorem free (hs : Sound s grips) {key : Key} {retire : Bool}
    (hp : grips p = some (key, .done retire)) :
    Sound (s.setLock key (Depot.freed retire (s.lock? key))) (Function.update grips p none) := by
  have hfits : (s.group? key).isNone = retire := hs.fits p key _ hp
  obtain ⟨e, he, -⟩ := hs.held p key _ hp
  have hold : ∀ q k z, Function.update grips p none q = some (k, z) →
      grips q = some (k, z) ∧ k ≠ key := by
    intro q k z hq
    rw [Function.update_apply] at hq
    split_ifs at hq with heq
    exact ⟨hq, fun hk => heq (hs.apart q p key z _ (hk ▸ hq) hp)⟩
  refine ⟨fun q r k y z hq hr => ?_, fun q k y hq => ?_, fun q k y hq => ?_, fun k e' hk hh => ?_,
    fun k e' hk hh => ?_, fun k hk => ?_, hs.tidy⟩
  · exact hs.apart q r k y z (hold q k y hq).1 (hold r k z hr).1
  · rw [Shelf.setLock_lock?, if_neg (hold q k y hq).2]
    exact hs.held q k y (hold q k y hq).1
  · exact hs.fits q k y (hold q k y hq).1
  · rw [Shelf.setLock_lock?] at hk
    split_ifs at hk with heq
    · -- the freed entry is not held
      cases retire
      · simp only [Depot.freed, he, Bool.false_eq_true, if_false, Option.map_some,
          Option.some.injEq] at hk
        rw [← hk] at hh
        cases hh
      · cases hk
    · obtain ⟨q, y, hq⟩ := hs.owned k e' hk hh
      refine ⟨q, y, ?_⟩
      rw [Function.update_of_ne, hq]
      rintro rfl
      rw [hp] at hq
      cases hq
      exact heq rfl
  · rw [Shelf.setLock_lock?] at hk
    rw [Shelf.setLock_group?]
    split_ifs at hk with heq
    · cases retire
      · rw [heq]
        simpa using hfits
      · cases hk
    · exact hs.resting k e' hk hh
  · rw [Shelf.setLock_group?] at hk
    rw [Shelf.setLock_lock?]
    split_ifs with heq
    · subst heq
      cases retire
      · simp [Depot.freed, he]
      · simp [Option.isNone_iff_eq_none.1 hfits] at hk
    · exact hs.guarded k hk

/-- A shelf stays sound, whatever the calls do. -/
theorem deal (hs : Sound s grips) (hp : grips p = x) (hd : Deal now s x e s' x') :
    Sound s' (Function.update grips p x') := by
  cases hd with
  | quiet =>
    rw [← hp, Function.update_eq_self]
    exact hs
  | learns h =>
    exact hs.keep hp (h hs.tidy (hs.fits p _ _ hp)) hs.tidy (fun _ => rfl) fun _ _ => rfl
  | takes hfree => exact hs.take hp hfree
  | @adds key m g hg =>
    have hmessages : g.messages ≠ [] := by simp [hg]
    have hkey : g.key = key := by
      rw [hg]
      rcases h : s.group? key with _ | old
      · rw [Shelf.get_of_none h]
        rfl
      · rw [Shelf.get_of_group? h]
        exact (hs.tidy key old h).1
    refine hs.keep hp (by simp [Sight.Fits]) (fun k other hk => ?_) (fun _ => rfl)
      fun k hne => by simp [hne]
    rw [Shelf.setGroup_group?] at hk
    split_ifs at hk with heq
    · cases hk
      exact ⟨hkey.trans heq.symm, hmessages⟩
    · exact hs.tidy k other hk
  | @removes key y =>
    refine hs.keep hp (by simp [Sight.Fits]) (fun k other hk => ?_) (fun _ => rfl)
      fun k hne => by simp [hne]
    rw [Shelf.setGroup_group?] at hk
    split_ifs at hk
    exact hs.tidy k other hk
  | frees => exact hs.free hp
  | disowns hf =>
    rw [← hp, Function.update_eq_self]
    exact hs.disown hf

end Sound

end Collate
