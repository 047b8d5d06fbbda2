import Collate.Message.Basic
import Mathlib.Data.List.Infix
import Mathlib.Logic.Function.Basic

/-!
# Segments

The arrivals under a key are cut greedily: a segment is over with the first arrival at which it has
as many members as one of them declares, and the next one begins after it. There is one way to cut
(`Cut.unique`), and it goes along with the arrivals: the next one ends the segment that waits or
waits with it (`Cut.snoc`). `Gathered` does so for all keys at once, and what is gathered of a list
of arrivals is, key by key, the cut of the arrivals under that key (`Gathered.gathers_takeAll`).
-/

namespace Collate

section Cut

variable {α : Type} (content : α → Content)

/-- A list that has as many members as one of them declares. -/
def Complete (seg : List α) : Prop :=
  ∃ x ∈ seg, 0 < (content x).sequenceSize ∧ (content x).sequenceSize ≤ seg.length

instance (seg : List α) : Decidable (Complete content seg) :=
  inferInstanceAs (Decidable (∃ x ∈ seg, _))

/-- Arrivals, the segments into which they are cut, each as short as it can be, and the rest, of
which no segment can be cut. -/
inductive Cut : List α → List (List α) → List α → Prop
  | rest {xs} : (∀ pre, pre <+: xs → ¬ Complete content pre) → Cut xs [] xs
  | segment {seg xs segs rest} : Complete content seg →
      (∀ pre, pre <+: seg → pre ≠ seg → ¬ Complete content pre) → Cut xs segs rest →
      Cut (seg ++ xs) (seg :: segs) rest

variable {content} {xs rest rest' : List α} {segs segs' : List (List α)} {x : α}

theorem not_complete_nil : ¬ Complete content [] := by
  simp [Complete]

theorem Cut.nil : Cut content [] [] [] :=
  .rest fun pre hpre => by rw [List.prefix_nil.1 hpre]; exact not_complete_nil

theorem Cut.whole (hc : Complete content xs)
    (hs : ∀ pre, pre <+: xs → pre ≠ xs → ¬ Complete content pre) : Cut content xs [xs] [] := by
  simpa using Cut.segment hc hs Cut.nil

theorem Cut.sublist (hc : Cut content xs segs rest) : ∀ seg ∈ segs, seg.Sublist xs := by
  induction hc with
  | rest => simp
  | segment _ _ _ ih =>
    intro seg hseg
    rcases List.mem_cons.1 hseg with rfl | hseg
    · exact List.sublist_append_left ..
    · exact (ih seg hseg).trans (List.sublist_append_right ..)

/-- Two segments at the head of one list, neither of which can be cut shorter, are the same. -/
theorem Cut.seg_unique {seg seg' ys : List α} (hc : Complete content seg)
    (hs : ∀ pre, pre <+: seg → pre ≠ seg → ¬ Complete content pre) (hc' : Complete content seg')
    (hs' : ∀ pre, pre <+: seg' → pre ≠ seg' → ¬ Complete content pre) (h : seg <+: ys)
    (h' : seg' <+: ys) : seg = seg' := by
  by_contra hne
  rcases Nat.le_total seg.length seg'.length with hle | hle
  · exact hs' seg (List.prefix_of_prefix_length_le h h' hle) hne hc
  · exact hs seg' (List.prefix_of_prefix_length_le h' h hle) (Ne.symm hne) hc'

theorem Cut.unique (hc : Cut content xs segs rest) (hc' : Cut content xs segs' rest') :
    segs = segs' ∧ rest = rest' := by
  induction hc generalizing segs' rest' with
  | rest hnone =>
    cases hc' with
    | rest => exact ⟨rfl, rfl⟩
    | segment hseg => exact absurd hseg (hnone _ (List.prefix_append ..))
  | @segment seg ys segs rest hseg hshort hcut ih =>
    generalize hzs : seg ++ ys = zs at hc'
    cases hc' with
    | rest hnone => exact absurd hseg (hnone seg ⟨ys, hzs⟩)
    | @segment seg' ys' segs' rest' hseg' hshort' hcut' =>
      obtain rfl : seg = seg' :=
        Cut.seg_unique hseg hshort hseg' hshort' ⟨ys, hzs⟩ (List.prefix_append ..)
      obtain rfl := List.append_cancel_left hzs
      obtain ⟨rfl, rfl⟩ := ih hcut'
      exact ⟨rfl, rfl⟩

/-- One arrival more. -/
theorem Cut.snoc (hc : Cut content xs segs rest) (x : α) :
    if Complete content (rest ++ [x]) then Cut content (xs ++ [x]) (segs ++ [rest ++ [x]]) []
    else Cut content (xs ++ [x]) segs (rest ++ [x]) := by
  induction hc with
  | @rest xs hnone =>
    split_ifs with h
    · refine Cut.whole h fun pre hpre hne => ?_
      rcases List.prefix_concat_iff.1 hpre with heq | hpre
      · exact absurd heq hne
      · exact hnone pre hpre
    · refine .rest fun pre hpre => ?_
      rcases List.prefix_concat_iff.1 hpre with rfl | hpre
      · exact h
      · exact hnone pre hpre
  | segment hseg hshort hcut ih =>
    rw [List.append_assoc]
    split_ifs with h
    · rw [if_pos h] at ih
      exact .segment hseg hshort ih
    · rw [if_neg h] at ih
      exact .segment hseg hshort ih

end Cut

/-! ## All keys at once -/

section Under

variable {β : Type}

/-- What stands under a key, in order. -/
def under (key : Key) (rows : List (Key × β)) : List β :=
  rows.filterMap fun row => if row.1 = key then some row.2 else none

@[simp] theorem under_nil (key : Key) : under key ([] : List (Key × β)) = [] := rfl

@[simp] theorem under_append (key : Key) (a b : List (Key × β)) :
    under key (a ++ b) = under key a ++ under key b :=
  List.filterMap_append

theorem under_singleton (key other : Key) (b : β) :
    under other [(key, b)] = if other = key then [b] else [] := by
  by_cases h : other = key
  · simp [under, h]
  · simp [under, h, Ne.symm h]

theorem mem_under {key : Key} {rows : List (Key × β)} {b : β} :
    b ∈ under key rows ↔ (key, b) ∈ rows := by
  simp only [under, List.mem_filterMap, Option.ite_none_right_eq_some, Option.some.injEq]
  constructor
  · rintro ⟨row, hrow, rfl, rfl⟩
    exact hrow
  · exact fun h => ⟨(key, b), h, rfl, rfl⟩

theorem pairwise_under {R : β → β → Prop} {rows : List (Key × β)}
    (h : rows.Pairwise fun a b => R a.2 b.2) (key : Key) : (under key rows).Pairwise R := by
  refine h.filterMap _ fun a b hab x hx y hy => ?_
  simp only [Option.ite_none_right_eq_some, Option.some.injEq] at hx hy
  rw [← hx.2, ← hy.2]
  exact hab

end Under

/-- What waits under each key, and the segments released so far, in order of release. -/
structure Gathered (α : Type) where
  waiting : Key → List α
  released : List (Key × List α)

namespace Gathered

variable {α : Type} (content : α → Content)

def empty : Gathered α := ⟨fun _ => [], []⟩

/-- Takes an arrival under a key: it ends the segment of its key or waits with it. -/
def take (g : Gathered α) (key : Key) (x : α) : Gathered α :=
  let seg := g.waiting key ++ [x]
  if Complete content seg then
    ⟨Function.update g.waiting key [], g.released ++ [(key, seg)]⟩
  else ⟨Function.update g.waiting key seg, g.released⟩

def takeAll (g : Gathered α) (arrivals : List (Key × α)) : Gathered α :=
  arrivals.foldl (fun g a => g.take content a.1 a.2) g

/-- What is gathered of the given arrivals: the cut of those under each key, where the segments
come in the order in which their last members arrived. -/
structure Gathers (arrivals : List (Key × α)) (g : Gathered α) : Prop where
  cut : ∀ key, Cut content (under key arrivals) (under key g.released) (g.waiting key)
  inOrder : (g.released.map fun r => (r.1, r.2.getLast?)).Sublist
    (arrivals.map fun a => (a.1, some a.2))

variable {content} {arrivals : List (Key × α)} {g : Gathered α}

theorem gathers_empty : Gathers content [] (empty : Gathered α) :=
  ⟨fun _ => .nil, List.Sublist.refl _⟩

theorem take_of_complete {key : Key} {x : α} (h : Complete content (g.waiting key ++ [x])) :
    g.take content key x = ⟨Function.update g.waiting key [],
      g.released ++ [(key, g.waiting key ++ [x])]⟩ :=
  if_pos h

theorem take_of_not_complete {key : Key} {x : α}
    (h : ¬ Complete content (g.waiting key ++ [x])) :
    g.take content key x = ⟨Function.update g.waiting key (g.waiting key ++ [x]), g.released⟩ :=
  if_neg h

theorem Gathers.take (hg : Gathers content arrivals g) (key : Key) (x : α) :
    Gathers content (arrivals ++ [(key, x)]) (g.take content key x) := by
  have hsnoc := (hg.cut key).snoc x
  by_cases h : Complete content (g.waiting key ++ [x])
  · rw [if_pos h] at hsnoc
    rw [take_of_complete h]
    refine ⟨fun other => ?_, by simpa using hg.inOrder.append_right [(key, some x)]⟩
    by_cases hk : other = key
    · subst hk
      simpa [under_singleton] using hsnoc
    · simpa [under_singleton, hk] using hg.cut other
  · rw [if_neg h] at hsnoc
    rw [take_of_not_complete h]
    refine ⟨fun other => ?_, by simpa using hg.inOrder.trans (List.sublist_append_left ..)⟩
    by_cases hk : other = key
    · subst hk
      simpa [under_singleton] using hsnoc
    · simpa [under_singleton, hk] using hg.cut other

theorem Gathers.takeAll (hg : Gathers content arrivals g) (more : List (Key × α)) :
    Gathers content (arrivals ++ more) (g.takeAll content more) := by
  induction more generalizing arrivals g with
  | nil => simpa [Gathered.takeAll] using hg
  | cons a more ih =>
    simpa [Gathered.takeAll] using ih (hg.take a.1 a.2)

variable (content) in
theorem gathers_takeAll (arrivals : List (Key × α)) :
    Gathers content arrivals (empty.takeAll content arrivals) :=
  gathers_empty.takeAll arrivals

end Gathered

end Collate
