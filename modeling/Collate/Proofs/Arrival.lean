import Collate.Message.Identity
import Collate.Proofs.Gathering
import Mathlib.Data.List.Dedup
import Mathlib.Data.List.Nodup

/-!
# Arrival order

Messages that make up whole groups, with numbers that tell the members of a group apart, may arrive
in any order: each group is released with its last member and leaves nothing behind
(`Machine.settles_of_whole`), and what goes out for it is the same (`Machine.arrival_order`). The
release cannot come early, since no member declares less than the size of its group, and sorting by
numbers that are apart forgets the order of arrival.
-/

namespace Collate

variable {σ : Type}

/-! ## Whole groups -/

/-- The messages of a key, in order of arrival. -/
def members (key : Key) (msgs : List Message) : List Message :=
  msgs.filter fun m => m.key? = some key

/-- The messages that have a key, each with its key. -/
def keyed (msgs : List Message) : List (Key × Message) :=
  msgs.filterMap fun m => m.key?.map fun key => (key, m)

/-- Messages that make up whole groups: each has a key, and the messages of a key have numbers of
their own and declare how many they are, or nothing, but not all of them nothing. -/
structure Whole (msgs : List Message) : Prop where
  keyed : ∀ m ∈ msgs, (m.key?).isSome = true
  distinct : ∀ key, ((members key msgs).map fun m => m.content.sequenceNumber).Nodup
  sizes : ∀ key, ∀ m ∈ members key msgs,
    m.content.sequenceSize = 0 ∨ m.content.sequenceSize = (members key msgs).length
  declared : ∀ key, members key msgs ≠ [] →
    ∃ m ∈ members key msgs, m.content.sequenceSize = (members key msgs).length

section Members

variable {key : Key} {msgs a b : List Message} {m : Message}

@[simp] theorem members_nil (key : Key) : members key [] = [] := rfl

theorem members_append (key : Key) (a b : List Message) :
    members key (a ++ b) = members key a ++ members key b :=
  List.filter_append ..

theorem members_cons_self (h : m.key? = some key) (msgs : List Message) :
    members key (m :: msgs) = m :: members key msgs := by
  simp [members, h]

theorem members_perm (h : a.Perm b) (key : Key) : (members key a).Perm (members key b) :=
  h.filter _

theorem members_eq_nil_iff : members key msgs = [] ↔ key ∉ msgs.filterMap Message.key? := by
  simp [members]

theorem under_keyed (key : Key) (msgs : List Message) :
    under key (keyed msgs) = members key msgs := by
  induction msgs with
  | nil => rfl
  | cons m msgs ih =>
    rcases h : m.key? with _ | other
    · simpa [keyed, members, h] using ih
    · by_cases hk : other = key
      · simpa [keyed, members, under, h, hk] using ih
      · simpa [keyed, members, under, h, hk] using ih

/-- What is gathered of messages is, key by key, the cut of their members. -/
theorem cut_members (key : Key) (msgs : List Message) :
    Cut Message.content (members key msgs)
      (under key (Gathered.empty.takeAll Message.content (keyed msgs)).released)
      ((Gathered.empty.takeAll Message.content (keyed msgs)).waiting key) := by
  rw [← under_keyed]
  exact (Gathered.gathers_takeAll Message.content (keyed msgs)).cut key

/-- Sorting by numbers that are apart does not depend on the order of arrival. -/
theorem arranged_eq_of_perm (hp : a.Perm b)
    (hn : (a.map fun m => m.content.sequenceNumber).Nodup) :
    arranged Message.content a = arranged Message.content b := by
  have ha := arranged_perm Message.content a
  have hb := arranged_perm Message.content b
  refine List.Perm.eq_of_pairwise (fun x y hx hy hxy hyx => ?_) (pairwise_arranged a)
    (pairwise_arranged b) (ha.trans (hp.trans hb.symm))
  exact List.inj_on_of_nodup_map hn (ha.mem_iff.1 hx) (hp.mem_iff.2 (hb.mem_iff.1 hy))
    (Nat.le_antisymm hxy hyx)

theorem aggregateUnder_perm (hp : a.Perm b)
    (hn : (a.map fun m => m.content.sequenceNumber).Nodup) :
    aggregateUnder Message.content (key, a) = aggregateUnder Message.content (key, b) := by
  have hsort : Processor.inSequence a = Processor.inSequence b := arranged_eq_of_perm hp hn
  rw [← aggregateOf_eq (g := ⟨key, a, 0⟩) rfl rfl, ← aggregateOf_eq (g := ⟨key, b, 0⟩) rfl rfl]
  simp only [Processor.aggregateOf, hsort]

end Members

namespace Whole

variable {msgs a b before after : List Message} {m : Message} {key : Key}

theorem iff_present : Whole msgs ↔ (∀ m ∈ msgs, (m.key?).isSome = true)
    ∧ ∀ key ∈ msgs.filterMap Message.key?,
      ((members key msgs).map fun m => m.content.sequenceNumber).Nodup
        ∧ (∀ m ∈ members key msgs, m.content.sequenceSize = 0
          ∨ m.content.sequenceSize = (members key msgs).length)
        ∧ ∃ m ∈ members key msgs, m.content.sequenceSize = (members key msgs).length := by
  constructor
  · intro hw
    refine ⟨hw.keyed, fun key hkey => ⟨hw.distinct key, hw.sizes key, hw.declared key ?_⟩⟩
    exact fun hnil => members_eq_nil_iff.1 hnil hkey
  · rintro ⟨hkeyed, hpresent⟩
    have hkeys : ∀ key, members key msgs = [] ∨ key ∈ msgs.filterMap Message.key? := fun key => by
      rw [members_eq_nil_iff]
      exact (Decidable.em _).symm
    refine ⟨hkeyed, fun key => ?_, fun key m hm => ?_, fun key hne => ?_⟩
    · rcases hkeys key with hnil | hkey
      · simp [hnil]
      · exact (hpresent key hkey).1
    · rcases hkeys key with hnil | hkey
      · simp [hnil] at hm
      · exact (hpresent key hkey).2.1 m hm
    · exact (hpresent key ((hkeys key).resolve_left hne)).2.2

instance (msgs : List Message) : Decidable (Whole msgs) := decidable_of_iff _ iff_present.symm

theorem perm (hw : Whole a) (hp : a.Perm b) : Whole b where
  keyed m hm := hw.keyed m (hp.mem_iff.2 hm)
  distinct key := ((members_perm hp key).map _).nodup_iff.1 (hw.distinct key)
  sizes key m hm := by
    rw [← (members_perm hp key).length_eq]
    exact hw.sizes key m ((members_perm hp key).mem_iff.2 hm)
  declared key hne := by
    obtain ⟨m, hm, hsize⟩ := hw.declared key fun hnil => hne
      (List.Perm.nil_eq (hnil ▸ members_perm hp key)).symm
    exact ⟨m, (members_perm hp key).mem_iff.1 hm, by rw [hsize, (members_perm hp key).length_eq]⟩

theorem complete (hw : Whole msgs) (hne : members key msgs ≠ []) :
    Complete Message.content (members key msgs) := by
  obtain ⟨m, hm, hsize⟩ := hw.declared key hne
  exact ⟨m, hm, by rw [hsize]; exact List.length_pos_of_mem hm, Nat.le_of_eq hsize⟩

/-- A part of a group is not complete. -/
theorem short (hw : Whole msgs) (key : Key) : ∀ pre, pre <+: members key msgs →
    pre ≠ members key msgs → ¬ Complete Message.content pre := by
  rintro pre hpre hne ⟨m, hm, hpos, hle⟩
  rcases hw.sizes key m (hpre.subset hm) with hsize | hsize
  · omega
  · exact hne (hpre.eq_of_length_le (hsize ▸ hle))

/-- The members of a key wait until the last of them is there. -/
theorem waiting (hw : Whole (before ++ m :: after)) (hkey : m.key? = some key) :
    (Gathered.empty.takeAll Message.content (Collate.keyed before)).waiting key
      = members key before := by
  have hcut := cut_members key before
  refine (hcut.unique (.rest fun pre hpre => hw.short key pre ?_ ?_)).2
  · rw [members_append]
    exact hpre.trans (List.prefix_append ..)
  · rintro rfl
    have hlen := hpre.length_le
    rw [members_append, members_cons_self hkey, List.length_append, List.length_cons] at hlen
    omega

/-- A message completes its group if and only if it is the last of its key. -/
theorem complete_iff (hw : Whole (before ++ m :: after)) (hkey : m.key? = some key) :
    Complete Message.content (members key before ++ [m]) ↔ members key after = [] := by
  have hsplit : members key (before ++ m :: after)
      = members key before ++ [m] ++ members key after := by
    rw [members_append, members_cons_self hkey, List.append_assoc, List.singleton_append]
  constructor
  · intro hc
    by_contra hne
    refine hw.short key _ ?_ ?_ hc
    · rw [hsplit]
      exact List.prefix_append ..
    · rw [hsplit]
      simpa using hne
  · intro hnil
    rw [hnil, List.append_nil] at hsplit
    rw [← hsplit]
    exact hw.complete (by simp [hsplit])

/-- In the end nothing waits. -/
theorem nothing_waits (hw : Whole msgs) (key : Key) :
    (Gathered.empty.takeAll Message.content (Collate.keyed msgs)).waiting key = [] := by
  have hcut := cut_members key msgs
  by_cases hne : members key msgs = []
  · rw [hne] at hcut
    exact (hcut.unique .nil).2
  · exact (hcut.unique (.whole (hw.complete hne) (hw.short key))).2

end Whole

/-! ## Runs -/

/-- A channel that accepts every message after at most so many actions, and where the outside shows
which messages it received. -/
def Channel.Accepts (output : Channel σ) (received : σ → List Message) (k : Nat) : Prop :=
  ∀ o m, (output.send m).Within (fun o' r => r = .ok () ∧ received o' = received o ++ [m]) k o

namespace Machine

/-- Handles messages one after another. -/
def handleAll (s : Machine σ) (h : HandlerId) (msgs : List Message) : Machine σ :=
  msgs.foldl (fun s m => (s.handle h m).1) s

theorem handleAll_append (s : Machine σ) (h : HandlerId) (a b : List Message) :
    s.handleAll h (a ++ b) = (s.handleAll h a).handleAll h b :=
  List.foldl_append

/-- What becomes of messages that are handled one after another, given what is to go out for each
key: every message but the last of its key waits, and sends nothing; the last one releases the group
and sends what is to go out; and in the end the depot is empty. -/
structure Settles (received : σ → List Message) (s : Machine σ) (h : HandlerId) (d : DepotId)
    (aggregate : Key → Content) (msgs : List Message) : Prop where
  waits : ∀ before m after key, msgs = before ++ m :: after → m.key? = some key →
    members key after ≠ [] →
    ((s.handleAll h before).handle h m).2
        = .returned (.ok (.pending key (members key (before ++ [m])).length))
      ∧ received (s.handleAll h (before ++ [m])).hub.outside
        = received (s.handleAll h before).hub.outside
  releases : ∀ before m after key, msgs = before ++ m :: after → m.key? = some key →
    members key after = [] →
    ((s.handleAll h before).handle h m).2
        = .returned (.ok (.released key (members key msgs).length))
      ∧ ∃ sent, sent.content = aggregate key
        ∧ received (s.handleAll h (before ++ [m])).hub.outside
          = received (s.handleAll h before).hub.outside ++ [sent]
  /-- One message for each key, in the order of the last members. -/
  sends : ∃ sent, received (s.handleAll h msgs).hub.outside = received s.hub.outside ++ sent
    ∧ sent.map Message.content = (msgs.filterMap Message.key?).dedup.map aggregate
  stored : ((s.handleAll h msgs).hub.depot d).store.groupCount = 0
  locked : ((s.handleAll h msgs).hub.depot d).locks.size = 0

section Runs

variable {sent : σ → List Content → Prop} {received : σ → List Message} {k : Nat}
  {output : Channel σ} {d : DepotId} {discard : Option (Channel σ)} {settings : HandlerSettings}
  {s : Machine σ} {h : HandlerId} {g : Gathered Message} {m : Message} {key : Key}
  {before after msgs : List Message}

/-- A message under a key sends the aggregate of the segment it ends, and nothing if it waits. -/
theorem Gathering.sends
    (hg : s.Gathering Message.content sent h (.aggregating d output discard settings) g)
    (ha : output.Accepts received k) (hk : k + 9 ≤ patience) (hkey : m.key? = some key) :
    ∃ out, received (s.handle h m).1.hub.outside = received s.hub.outside ++ out
      ∧ out.map Message.content = if Complete Message.content (g.waiting key ++ [m]) then
        [aggregateUnder Message.content (key, g.waiting key ++ [m])] else [] := by
  -- what was sent before this message is left out of account
  let since : σ → List Content → Prop := fun o cs => ∃ out,
    received o = received s.hub.outside ++ out
      ∧ cs = g.released.map (aggregateUnder Message.content) ++ out.map Message.content
  have ht : output.Takes since k := by
    rintro o cs m items ⟨out, hout, rfl⟩ -
    refine (ha o m).imp fun o' r ⟨hr, hreceived⟩ => ⟨hr, out ++ [m], ?_, by simp⟩
    rw [hreceived, hout, List.append_assoc]
  have hg' : s.Gathering Message.content since h (.aggregating d output discard settings) g :=
    hg.resend ⟨[], by simp, by simp⟩
  obtain ⟨out, hout, hcontents⟩ := (hg'.handle ht hk hkey rfl).1.taken
  refine ⟨out, hout, ?_⟩
  split_ifs with hc
  · rw [Gathered.take_of_complete hc] at hcontents
    simpa using hcontents.symm
  · rw [Gathered.take_of_not_complete hc] at hcontents
    simpa using hcontents.symm

theorem Gathering.handleAll
    (hg : s.Gathering Message.content sent h (.aggregating d output discard settings) g)
    (ht : output.Takes sent k) (hk : k + 9 ≤ patience) (msgs : List Message) :
    (s.handleAll h msgs).Gathering Message.content sent h
      (.aggregating d output discard settings) (g.takeAll Message.content (keyed msgs)) := by
  induction msgs generalizing s g with
  | nil => exact hg
  | cons m msgs ih =>
    rcases hkey : m.key? with _ | key
    · have hkeyed : keyed (m :: msgs) = keyed msgs := by simp [keyed, hkey]
      rw [hkeyed]
      exact ih (hg.refuse hkey).1
    · have hkeyed : keyed (m :: msgs) = (key, m) :: keyed msgs := by simp [keyed, hkey]
      rw [hkeyed]
      exact ih (hg.handle ht hk hkey rfl).1

/-- One message of whole groups, after those before it. -/
theorem Gathering.turn (hg : s.Gathering Message.content (fun _ _ => True) h
      (.aggregating d output discard settings) Gathered.empty)
    (ha : output.Accepts received k) (hk : k + 9 ≤ patience)
    (hw : Whole (before ++ m :: after)) (hkey : m.key? = some key) :
    ((s.handleAll h before).handle h m).2 = .returned (.ok (.of (members key after = []) key
        (members key (before ++ [m])).length))
      ∧ ∃ out, received (s.handleAll h (before ++ [m])).hub.outside
          = received (s.handleAll h before).hub.outside ++ out
        ∧ out.map Message.content = if members key after = [] then
          [aggregateUnder Message.content (key, members key (before ++ m :: after))] else [] := by
  have ht : output.Takes (fun _ _ => True) k := fun o cs m items _ _ =>
    (ha o m).imp fun _ _ ⟨hr, _⟩ => ⟨hr, trivial⟩
  have hbefore := hg.handleAll ht hk before
  have hmembers : members key (before ++ [m]) = members key before ++ [m] := by
    rw [members_append, members_cons_self hkey]
    rfl
  have hafter : s.handleAll h (before ++ [m]) = ((s.handleAll h before).handle h m).1 := by
    rw [handleAll_append]
    rfl
  have hresult := (hbefore.handle ht hk hkey rfl).2
  obtain ⟨out, hout, hcontents⟩ := hbefore.sends ha hk hkey
  rw [hw.waiting hkey] at hresult hcontents
  refine ⟨?_, out, by rw [hafter, hout], ?_⟩
  · rw [hresult, hmembers]
    simp only [Handled.of, hw.complete_iff hkey]
  · rw [hcontents]
    simp only [hw.complete_iff hkey]
    split_ifs with hlast
    · rw [members_append, members_cons_self hkey, hlast]
    · rfl

/-- What goes out with each message makes up what goes out with all that are left: one aggregate for
each of their keys, in the order of the last members. -/
theorem sends_of_turns {aggregate : Key → Content}
    (hturn : ∀ before m after key, msgs = before ++ m :: after → m.key? = some key →
      ∃ out, received (s.handleAll h (before ++ [m])).hub.outside
          = received (s.handleAll h before).hub.outside ++ out
        ∧ out.map Message.content = if members key after = [] then [aggregate key] else [])
    (hkeyed : ∀ m ∈ msgs, (m.key?).isSome = true) :
    ∀ after before : List Message, msgs = before ++ after →
      ∃ out, received (s.handleAll h msgs).hub.outside
          = received (s.handleAll h before).hub.outside ++ out
        ∧ out.map Message.content = (after.filterMap Message.key?).dedup.map aggregate
  | [], before, hsplit => ⟨[], by simp [hsplit], rfl⟩
  | m :: after, before, hsplit => by
    obtain ⟨key, hkey⟩ := Option.isSome_iff_exists.1 (hkeyed m (by simp [hsplit]))
    obtain ⟨now, hnow, hnow'⟩ := hturn before m after key hsplit hkey
    obtain ⟨later, hlater, hlater'⟩ :=
      sends_of_turns hturn hkeyed after (before ++ [m]) (by simp [hsplit])
    refine ⟨now ++ later, by rw [hlater, hnow, List.append_assoc], ?_⟩
    rw [List.map_append, hnow', hlater', List.filterMap_cons_some hkey]
    split_ifs with hlast
    · rw [List.dedup_cons_of_notMem (members_eq_nil_iff.1 hlast)]
      rfl
    · rw [List.dedup_cons_of_mem (not_not.1 fun hnot => hlast (members_eq_nil_iff.2 hnot))]
      rfl

/-- Whole groups leave an idle handler on an empty depot as they found it. -/
theorem settles_of_whole (hg : s.Gathering Message.content (fun _ _ => True) h
      (.aggregating d output discard settings) Gathered.empty)
    (ha : output.Accepts received k) (hk : k + 9 ≤ patience) (hw : Whole msgs) :
    s.Settles received h d
      (fun key => aggregateUnder Message.content (key, members key msgs)) msgs := by
  have hend := hg.handleAll (fun o cs m items _ _ => (ha o m).imp fun _ _ ⟨hr, _⟩ => ⟨hr, trivial⟩)
    hk msgs
  obtain ⟨hgroups, hlocks⟩ := hend.bare hw.nothing_waits
  refine ⟨fun before m after key hsplit hkey hlast => ?_,
    fun before m after key hsplit hkey hlast => ?_, ?_, ?_, ?_⟩
  · subst hsplit
    obtain ⟨hresult, out, hout, hnone⟩ := hg.turn ha hk hw hkey
    rw [if_neg hlast, List.map_eq_nil_iff] at hnone
    refine ⟨by simpa [Handled.of, hlast] using hresult, ?_⟩
    rw [hout, hnone, List.append_nil]
  · subst hsplit
    obtain ⟨hresult, out, hout, hone⟩ := hg.turn ha hk hw hkey
    rw [if_pos hlast] at hone
    obtain ⟨sent, rfl, hsent⟩ := List.map_eq_singleton_iff.1 hone
    refine ⟨?_, sent, hsent, hout⟩
    simpa [Handled.of, hlast, members_append, members_cons_self hkey] using hresult
  · refine sends_of_turns (fun before m after key hsplit hkey => ?_) hw.keyed msgs [] rfl
    subst hsplit
    exact (hg.turn ha hk hw hkey).2
  · exact congrArg Dictionary.size hgroups
  · exact congrArg KeyLocks.size hlocks

end Runs

/-- Messages that make up whole groups may arrive in any order. Either way each group is released
with the last of its messages, one aggregate goes out for it, whose content does not depend on the
order, and neither a group nor a lock is left. Handling takes nine steps besides those of the
channel. -/
theorem arrival_order {received : σ → List Message} {output : Channel σ} {k : Nat}
    (ha : output.Accepts received k) (hk : k + 9 ≤ patience) (discard : Option (Channel σ))
    (settings : HandlerSettings) {a b : List Message} (hw : Whole a) (hp : a.Perm b)
    (outside outside' : σ) (idOf idOf' : Nat → MessageId) :
    ∃ aggregate : Key → Content,
      (ready outside idOf (.aggregating 0 output discard settings)).Settles received 0 0 aggregate a
      ∧ (ready outside' idOf' (.aggregating 0 output discard settings)).Settles received 0 0
        aggregate b := by
  have hready : ∀ (o : σ) (idOf : Nat → MessageId),
      (ready o idOf (.aggregating 0 output discard settings)).Gathering Message.content
        (fun _ _ => True) 0 (.aggregating 0 output discard settings) Gathered.empty :=
    fun o idOf => gathering_ready _ idOf rfl trivial
  refine ⟨fun key => aggregateUnder Message.content (key, members key a),
    settles_of_whole (hready outside idOf) ha hk hw, ?_⟩
  have hsame : (fun key => aggregateUnder Message.content (key, members key a))
      = fun key => aggregateUnder Message.content (key, members key b) :=
    funext fun key => aggregateUnder_perm (members_perm hp key) (hw.distinct key)
  rw [hsame]
  exact settles_of_whole (hready outside' idOf') ha hk (hw.perm hp)

section Example

/-- A message of an order, by its number and the size it declares. -/
def part (order : String) (number size : Nat) : Message :=
  ⟨⟨order⟩, ((Draft.ofPayload (.text order)).correlate ⟨order⟩ |>.number number).size size⟩

/-- Two orders, of three parts and of one. -/
def orders : List Message := [part "a" 3 0, part "b" 1 1, part "a" 1 3, part "a" 2 0]

/-- The channel whose outside is the list of what it received. -/
def kept : Channel (List Message) := ⟨fun m => .act (· ++ [m]) fun _ => .done (.ok ())⟩

theorem accepts_kept : kept.Accepts id 1 := fun _ _ => .act (.done ⟨rfl, rfl⟩)

theorem arrival_order_orders : Whole orders ∧ orders.Perm orders.reverse
    ∧ ∃ aggregate : Key → Content,
      (ready [] MessageId.ofBits (.aggregating 0 kept none .standard)).Settles id 0 0 aggregate
          orders
        ∧ (ready [] (fun n => MessageId.ofBits (n + 1))
          (.aggregating 0 kept none .standard)).Settles id 0 0 aggregate orders.reverse :=
  ⟨by decide, (List.reverse_perm _).symm,
    arrival_order accepts_kept (by decide) none .standard (by decide) (List.reverse_perm _).symm
      [] [] MessageId.ofBits fun n => MessageId.ofBits (n + 1)⟩

end Example

end Machine

end Collate
