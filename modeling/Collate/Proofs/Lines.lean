import Collate.Proofs.Journals
import Collate.Proofs.Reading
import Collate.Proofs.Sittings

/-!
# One line and the others

A run over an input takes its lines one after another, each when its time comes
(`Chronicle.follow`), and has one fate to report for each of them, by which it is counted
(`Chronicle.Accounts`). A line that is blank, malformed or without a key is idle: while it is taken,
time goes by, records are logged and an id may be drawn, and that is all (`Tends.feed_idle`). Since
nothing depends on what was logged before, a run that never saw some of the idle lines, but takes
the others when they were taken, has the same to report of them and ends up the same
(`Spares.follow`). A line that is no text ends a run, after what the lines in front of it come to
(`process_of_none`). Together that is `Intake.no_line_spoils_another`.
-/

namespace Collate

variable {σ : Type}

/-! ## Lists without some elements -/

/-- The second list is the first one without some elements of which `P` holds. -/
inductive Thins {α : Type} (P : α → Prop) : List α → List α → Prop
  | nil : Thins P [] []
  | keep {xs ys} (x : α) : Thins P xs ys → Thins P (x :: xs) (x :: ys)
  | drop {xs ys} (x : α) : P x → Thins P xs ys → Thins P (x :: xs) ys

namespace Thins

variable {α : Type} {P Q : α → Prop} {xs xs' ys ys' : List α}

theorem imp (h : Thins P xs ys) (hpq : ∀ x, P x → Q x) : Thins Q xs ys := by
  induction h with
  | nil => exact .nil
  | keep x _ ih => exact .keep x ih
  | drop x hx _ ih => exact .drop x (hpq x hx) ih

theorem append (h : Thins P xs ys) (h' : Thins P xs' ys') : Thins P (xs ++ xs') (ys ++ ys') := by
  induction h with
  | nil => exact h'
  | keep x _ ih => exact .keep x ih
  | drop x hx _ ih => exact .drop x hx ih

/-- Elements that are not counted may go. -/
theorem countP_eq (h : Thins P xs ys) {q : α → Bool} (hq : ∀ x, P x → q x = false) :
    ys.countP q = xs.countP q := by
  induction h with
  | nil => rfl
  | keep x _ ih => rw [List.countP_cons, List.countP_cons, ih]
  | drop x hx _ ih => rw [List.countP_cons_of_neg (by simp [hq x hx]), ih]

end Thins

namespace Intake

/-! ## Lines of bytes -/

/-- A line without a carriage return at its end. -/
def chomp (line : List UInt8) : List UInt8 :=
  if line.getLast? = some 13 then line.dropLast else line

theorem splitLines_end (current rest : List UInt8) :
    splitLines current (10 :: rest) = chomp current.reverse :: splitLines [] rest := by
  rcases current with _ | ⟨b, current⟩
  · rfl
  · by_cases hb : b = 13
    · simp [splitLines, chomp, hb]
    · simp [splitLines, chomp, hb]

theorem splitLines_inside {b : UInt8} (hb : b ≠ 10) (current rest : List UInt8) :
    splitLines current (b :: rest) = splitLines (b :: current) rest := by
  cases current <;> simp [splitLines, hb]

/-- Bytes up to a line feed make up a line. -/
theorem splitLines_append (seg : List UInt8) (hseg : 10 ∉ seg) (current rest : List UInt8) :
    splitLines current (seg ++ 10 :: rest)
      = chomp (current.reverse ++ seg) :: splitLines [] rest := by
  induction seg generalizing current with
  | nil => rw [List.nil_append, splitLines_end, List.append_nil]
  | cons b seg ih =>
    obtain ⟨hb, hseg⟩ := not_or.1 (List.mem_cons.not.1 hseg)
    rw [List.cons_append, splitLines_inside (Ne.symm hb), ih hseg]
    simp

/-- Bytes without a line feed are a line if there are any. -/
theorem splitLines_last (seg : List UInt8) (hseg : 10 ∉ seg) (current : List UInt8) :
    splitLines current seg
      = if current.reverse ++ seg = [] then [] else [current.reverse ++ seg] := by
  induction seg generalizing current with
  | nil => cases current <;> simp [splitLines]
  | cons b seg ih =>
    obtain ⟨hb, hseg⟩ := not_or.1 (List.mem_cons.not.1 hseg)
    rw [splitLines_inside (Ne.symm hb), ih hseg]
    simp

/-- Lines that others follow are the lines of the bytes in front of the others. -/
theorem exists_front (pre : List (List UInt8)) {line : List UInt8} {post : List (List UInt8)}
    {input : List UInt8} (h : splitLines [] input = pre ++ line :: post) :
    ∃ front back, input = front ++ back ∧ splitLines [] front = pre
      ∧ splitLines [] back = line :: post := by
  induction pre generalizing input with
  | nil => exact ⟨[], input, rfl, rfl, h⟩
  | cons first pre ih =>
    by_cases hend : 10 ∈ input
    · obtain ⟨seg, rest, rfl, hseg⟩ := List.eq_append_cons_of_mem hend
      rw [splitLines_append seg hseg, List.cons_append, List.cons.injEq] at h
      obtain ⟨rfl, hrest⟩ := h
      obtain ⟨front, back, rfl, hfront, hback⟩ := ih hrest
      exact ⟨seg ++ 10 :: front, back, by simp, by rw [splitLines_append seg hseg, hfront], hback⟩
    · -- there would be one line at most
      have hlength := congrArg List.length h
      rw [splitLines_last input hend, apply_ite List.length] at hlength
      simp only [List.length_nil, List.length_append, List.length_cons] at hlength
      split_ifs at hlength
      omega

theorem texts_append_of_none (pre : List (List UInt8)) {bad : List UInt8}
    (post : List (List UInt8)) (hbad : Utf8.decode? bad = none) :
    texts (pre ++ bad :: post) = texts pre := by
  induction pre with
  | nil => simp [texts, hbad]
  | cons line pre ih => simp only [List.cons_append, texts, ih]

theorem length_texts_le (lines : List (List UInt8)) : (texts lines).length ≤ lines.length := by
  induction lines with
  | nil => exact Nat.le_refl 0
  | cons line lines ih =>
    unfold texts
    split
    · exact Nat.zero_le _
    · exact Nat.succ_le_succ ih

theorem length_texts {lines : List (List UInt8)}
    (h : ∀ line ∈ lines, (Utf8.decode? line).isSome = true) :
    (texts lines).length = lines.length := by
  induction lines with
  | nil => rfl
  | cons line lines ih =>
    obtain ⟨cs, hcs⟩ := Option.isSome_iff_exists.1 (h line List.mem_cons_self)
    simp only [texts, hcs, List.length_cons, ih fun l hl => h l (List.mem_cons_of_mem _ hl)]

/-! ## What becomes of a line -/

/-- How a line is counted. -/
inductive Kind where
  | blank
  | malformed
  | accepted
  | rejected
  deriving DecidableEq

namespace Fate

def kind : Fate → Kind
  | .blank => .blank
  | .malformed _ => .malformed
  | .handled (.returned (.ok _)) => .accepted
  | .handled _ => .rejected

def releases : Fate → Bool
  | .handled (.returned (.ok (.released ..))) => true
  | _ => false

/-- Whether a line can come to this. -/
def Fits (line : List Char) : Fate → Prop
  | .blank => (Text.trim line).isEmpty = true
  | .malformed f => (Text.trim line).isEmpty = false ∧ Record.parse (String.ofList line) = .error f
  | .handled _ =>
    (Text.trim line).isEmpty = false ∧ ∃ r, Record.parse (String.ofList line) = .ok r

theorem kind_of_releases {fate : Fate} (h : fate.releases = true) : fate.kind = .accepted := by
  unfold releases at h
  split at h
  · rfl
  · cases h

end Fate

theorem count_eq (summary : Summary) (fate : Fate) : count summary fate = {
    lines := summary.lines + 1
    accepted := summary.accepted + if fate.kind = .accepted then 1 else 0
    released := summary.released + if fate.releases then 1 else 0
    malformed := summary.malformed + if fate.kind = .malformed then 1 else 0
    rejected := summary.rejected + if fate.kind = .rejected then 1 else 0 } := by
  rcases fate with _ | f | ((e | _ | _) | _) <;> rfl

theorem fits_feed (s : Machine σ) (h : HandlerId) (line : List Char) :
    (feed s h line).2.Fits line := by
  unfold feed
  split_ifs with hblank
  · exact hblank
  · rcases hparse : Record.parse (String.ofList line) with f | r
    · exact ⟨by simpa using hblank, hparse⟩
    · exact ⟨by simpa using hblank, r, hparse⟩

/-! ## Runs at any pace -/

/-- What the clock says, and which ids are to come. -/
structure Reading where
  clock : Instant
  idsDrawn : Nat
  idOf : Nat → MessageId

namespace Reading

/-- The next id. -/
def nextId (r : Reading) : MessageId := r.idOf r.idsDrawn

/-- Time went by and ids were drawn. -/
structure Before (a b : Reading) : Prop where
  clock : a.clock ≤ b.clock
  idsDrawn : a.idsDrawn ≤ b.idsDrawn
  idOf : b.idOf = a.idOf

theorem Before.refl (a : Reading) : a.Before a := ⟨Nat.le_refl _, Nat.le_refl _, rfl⟩

theorem Before.trans {a b c : Reading} (hab : a.Before b) (hbc : b.Before c) : a.Before c :=
  ⟨Nat.le_trans hab.clock hbc.clock, Nat.le_trans hab.idsDrawn hbc.idsDrawn,
    hbc.idOf.trans hab.idOf⟩

end Reading

/-- A line, and how things stand when it is taken. -/
structure Row where
  line : List Char
  reading : Reading

/-- A blank or malformed line, or one from which a message without a key is made. -/
def Row.Idle (handler : Handler σ) (row : Row) : Prop :=
  (Text.trim row.line).isEmpty = true ∨ ∀ r, Record.parse (String.ofList row.line) = .ok r →
    handler.correlation (r.draft.finish row.reading.nextId) = .returned none

end Intake

open Intake (Row Fate Reading)

namespace Machine

def reading (s : Machine σ) : Reading := ⟨s.hub.clock, s.hub.idsDrawn, s.hub.idOf⟩

/-- The machine when things stand like this. -/
def attune (s : Machine σ) (r : Reading) : Machine σ :=
  { s with hub := { s.hub with clock := r.clock, idsDrawn := r.idsDrawn, idOf := r.idOf } }

/-- What there is but for the readings and the journal. -/
def gist (s : Machine σ) : Machine σ :=
  { s with hub :=
    { s.hub with clock := 0, idsDrawn := 0, idOf := fun _ => ⟨""⟩, journal := [] } }

end Machine

/-! ## What an idle line leaves -/

/-- Only time goes by, ids are drawn and records are logged from one machine to the other. -/
structure Machine.Idles (s s' : Machine σ) : Prop where
  gist : s'.gist = s.gist
  before : s.reading.Before s'.reading

namespace Machine.Idles

variable {s s' : Machine σ}

theorem refl (s : Machine σ) : s.Idles s := ⟨rfl, .refl _⟩

theorem depots (hi : s.Idles s') : s'.hub.depots = s.hub.depots := by
  change s'.gist.hub.depots = s.gist.hub.depots
  rw [hi.gist]

theorem outside (hi : s.Idles s') : s'.hub.outside = s.hub.outside := by
  change s'.gist.hub.outside = s.gist.hub.outside
  rw [hi.gist]

end Machine.Idles

/-- A handler that is there, on a machine in good order. -/
structure Machine.Tends (s : Machine σ) (h : HandlerId) (handler : Handler σ) : Prop where
  orderly : s.Orderly
  known : s.hub.handler? h = some handler
  live : s.hub.isLive h = true

namespace Machine.Tends

variable {s s' : Machine σ} {h : HandlerId} {handler : Handler σ}

/-- Neither readings nor the journal are looked at. -/
theorem of_gist (hs : s.Tends h handler) (hb : s'.gist = s.gist) : s'.Tends h handler := by
  obtain ⟨⟨depots, members, hooks, _, _, _, arrange, outside, _⟩, threads⟩ := s
  obtain ⟨⟨depots', members', hooks', _, _, _, arrange', outside', _⟩, threads'⟩ := s'
  simp only [gist, Machine.mk.injEq, Hub.mk.injEq, true_and, and_true] at hb
  obtain ⟨⟨rfl, rfl, rfl, rfl, rfl⟩, rfl⟩ := hb
  have ho := hs.orderly.hub
  refine ⟨⟨⟨ho.handlers, ho.hooks, ho.arrange, ho.service, ho.participants⟩, fun p f hf => ?_⟩,
    hs.known, hs.live⟩
  exact (hs.orderly.frames p f hf).grows
    ⟨fun _ old hold => ⟨old, hold, .refl old⟩, Nat.le_refl _⟩

/-- Whatever is handled, the handler is there afterwards. -/
theorem handle (hs : s.Tends h handler) (h' : HandlerId) (m : Message) :
    (s.handle h' m).1.Tends h handler := by
  obtain ⟨u, t, hsit, hcall⟩ := exists_sitting_call hs.orderly (a := .handle h' m) rfl
  have hmachine : (s.handle h' m).1 = ⟨u.hub, s.threads⟩ := by
    unfold Machine.handle
    rw [hcall]
    rcases t.reply with _ | reply
    · rfl
    · cases reply <;> rfl
  rw [hmachine]
  exact ⟨hsit.orderly_without, (hsit.handlers h).trans hs.known, hsit.isLive hs.live⟩

theorem feed (hs : s.Tends h handler) (line : List Char) :
    (Intake.feed s h line).1.Tends h handler := by
  unfold Intake.feed
  split_ifs
  · exact hs
  · rcases Record.parse (String.ofList line) with f | r
    · exact hs
    · have hmade : ({ Intake.note s r.warnings with
          hub := (Intake.note s r.warnings).hub.draw.1 } : Machine σ).Tends h handler :=
        hs.of_gist rfl
      exact hmade.handle h _

/-- Taking an idle line changes nothing but readings and the journal. -/
theorem feed_idle (hs : s.Tends h handler) {row : Row} (hr : s.reading = row.reading)
    (hidle : row.Idle handler) :
    s.Idles (Intake.feed s h row.line).1 ∧ (Intake.feed s h row.line).2.kind ≠ .accepted := by
  unfold Intake.feed
  split_ifs with hblank
  · exact ⟨.refl s, by simp [Fate.kind]⟩
  · rcases hparse : Record.parse (String.ofList row.line) with f | r
    · exact ⟨.refl s, by simp [Fate.kind]⟩
    · let made : Machine σ := { Intake.note s r.warnings with
        hub := (Intake.note s r.warnings).hub.draw.1 }
      have hmade : made.Tends h handler := hs.of_gist rfl
      -- the id that is drawn is the next one of the reading
      have hkeyless : handler.correlation (r.draft.finish s.reading.nextId) = .returned none := by
        rw [hr]
        exact (hidle.resolve_left hblank) r hparse
      obtain ⟨t, hhandle⟩ := handle_of_keyless hmade.known hmade.live hkeyless
      have hsubmit : Intake.submit s h r = (⟨made.hub.elapse t, made.threads⟩,
          .returned (.error (.correlation s.reading.nextId))) := hhandle
      simp only [hsubmit]
      exact ⟨⟨rfl, Nat.le_add_right _ _, Nat.le_add_right _ _, rfl⟩, by simp [Fate.kind]⟩

end Machine.Tends

/-! ## Machines that differ in the journal -/

namespace Machine

variable {s t : Machine σ}

theorem attune_eq_preceded (s : Machine σ) (r : Reading) :
    s.attune r = (s.gist.attune r).preceded s.hub.journal := by
  simp [attune, gist, preceded, Hub.preceded]

/-- Machines that differ in readings and journals make the same of a line that is met by both at
the same reading. -/
theorem feed_attune_congr (hb : t.gist = s.gist) (r : Reading) (h : HandlerId)
    (line : List Char) :
    (Intake.feed (t.attune r) h line).2 = (Intake.feed (s.attune r) h line).2
      ∧ (Intake.feed (s.attune r) h line).1.Idles (Intake.feed (t.attune r) h line).1 := by
  rw [attune_eq_preceded t, attune_eq_preceded s, hb, Intake.feed_preceded, Intake.feed_preceded]
  exact ⟨rfl, rfl, .refl _⟩

end Machine

/-! ## Runs -/

namespace Intake

/-- A run at work: the machine, the counters, and what became of the rows so far. -/
structure Chronicle (σ : Type) where
  machine : Machine σ
  summary : Summary
  reports : List (Row × Fate)

namespace Chronicle

variable {h : HandlerId} {handler : Handler σ} {c full thin : Chronicle σ}

def start (s : Machine σ) : Chronicle σ := ⟨s, .zero, []⟩

/-- What becomes of the next row, at its reading. -/
def feed (h : HandlerId) (c : Chronicle σ) (row : Row) : Machine σ × Fate :=
  Intake.feed (c.machine.attune row.reading) h row.line

def take (h : HandlerId) (c : Chronicle σ) (row : Row) : Chronicle σ :=
  let next := Intake.take (c.machine.attune row.reading) h c.summary row.line
  ⟨next.1, next.2, c.reports ++ [(row, (c.feed h row).2)]⟩

theorem take_eq (h : HandlerId) (c : Chronicle σ) (row : Row) : c.take h row
    = ⟨note (c.feed h row).1 (records (c.summary.lines + 1) (c.feed h row).2),
      count c.summary (c.feed h row).2, c.reports ++ [(row, (c.feed h row).2)]⟩ := rfl

def follow (h : HandlerId) (rows : List Row) (c : Chronicle σ) : Chronicle σ :=
  rows.foldl (take h) c

/-- Whether no row is taken before the one in front of it is through. -/
def Paced (h : HandlerId) : Chronicle σ → List Row → Prop
  | _, [] => True
  | c, row :: rows => c.machine.reading.Before row.reading ∧ (c.take h row).Paced h rows

/-- The rows of a run that goes from line to line without a pause. -/
def rowsOf (h : HandlerId) : Chronicle σ → List (List Char) → List Row
  | _, [] => []
  | c, line :: lines =>
    let row := ⟨line, c.machine.reading⟩
    row :: rowsOf h (c.take h row) lines

theorem paced_rowsOf (h : HandlerId) (lines : List (List Char)) (c : Chronicle σ) :
    c.Paced h (rowsOf h c lines) := by
  induction lines generalizing c with
  | nil => trivial
  | cons line lines ih => exact ⟨.refl _, ih _⟩

theorem line_rowsOf (h : HandlerId) (lines : List (List Char)) (c : Chronicle σ) :
    (rowsOf h c lines).map Row.line = lines := by
  induction lines generalizing c with
  | nil => rfl
  | cons line lines ih => simp only [rowsOf, List.map_cons, ih]

/-- Such a run is the one that takes the lines one after another. -/
theorem takeAll_eq_follow (h : HandlerId) (lines : List (List Char)) (c : Chronicle σ) :
    takeAll h lines (c.machine, c.summary)
      = ((follow h (rowsOf h c lines) c).machine, (follow h (rowsOf h c lines) c).summary) := by
  induction lines generalizing c with
  | nil => rfl
  | cons line lines ih => exact ih (c.take h ⟨line, c.machine.reading⟩)

/-! ### Counting -/

/-- How many rows so far are counted like this. -/
def number (c : Chronicle σ) (k : Kind) : Nat := c.reports.countP fun x => x.2.kind = k

/-- Every row so far has one fate, which fits its line, and the counters count the fates. -/
structure Accounts (c : Chronicle σ) : Prop where
  lines : c.summary.lines = c.reports.length
  malformed : c.summary.malformed = c.number .malformed
  accepted : c.summary.accepted = c.number .accepted
  rejected : c.summary.rejected = c.number .rejected
  released : c.summary.released = c.reports.countP fun x => x.2.releases
  fits : ∀ x ∈ c.reports, x.2.Fits x.1.line

theorem accounts_start (s : Machine σ) : (start s).Accounts :=
  ⟨rfl, rfl, rfl, rfl, rfl, fun _ hx => by cases hx⟩

theorem number_take (h : HandlerId) (c : Chronicle σ) (row : Row) (k : Kind) :
    (c.take h row).number k = c.number k + if (c.feed h row).2.kind = k then 1 else 0 := by
  simp [number, take_eq, List.countP_append, List.countP_singleton]

theorem Accounts.take (hc : c.Accounts) (h : HandlerId) (row : Row) : (c.take h row).Accounts where
  lines := by
    simp only [take_eq, count_eq, hc.lines, List.length_append, List.length_singleton]
  malformed := by
    rw [number_take, ← hc.malformed, take_eq, count_eq]
  accepted := by
    rw [number_take, ← hc.accepted, take_eq, count_eq]
  rejected := by
    rw [number_take, ← hc.rejected, take_eq, count_eq]
  released := by
    simp only [take_eq, count_eq, hc.released, List.countP_append, List.countP_singleton]
  fits x hx := by
    rcases List.mem_append.1 hx with hx | hx
    · exact hc.fits x hx
    · rw [List.mem_singleton.1 hx]
      exact fits_feed _ h row.line

theorem Accounts.follow (hc : c.Accounts) (h : HandlerId) (rows : List Row) :
    (c.follow h rows).Accounts := by
  induction rows generalizing c with
  | nil => exact hc
  | cons row rows ih => exact ih (hc.take h row)

/-- Each line is counted once. -/
theorem Accounts.total (hc : c.Accounts) : c.summary.lines
    = c.number .blank + c.summary.malformed + c.summary.accepted + c.summary.rejected := by
  rw [hc.lines, hc.malformed, hc.accepted, hc.rejected]
  unfold number
  induction c.reports with
  | nil => rfl
  | cons x reports ih =>
    simp only [List.length_cons, List.countP_cons, ih]
    cases x.2.kind <;> simp <;> omega

theorem Accounts.released_le (hc : c.Accounts) : c.summary.released ≤ c.summary.accepted := by
  rw [hc.released, hc.accepted]
  exact List.countP_mono_left fun x _ hx => decide_eq_true (Fate.kind_of_releases hx)

theorem rows_follow (h : HandlerId) (rows : List Row) (c : Chronicle σ) :
    (c.follow h rows).reports.map Prod.fst = c.reports.map Prod.fst ++ rows := by
  induction rows generalizing c with
  | nil => exact (List.append_nil _).symm
  | cons row rows ih =>
    refine (ih (c.take h row)).trans ?_
    simp [Chronicle.take]

/-! ### Leaving idle lines out -/

/-- A run that never saw some of the idle rows, and what it has to report. -/
structure Spares (handler : Handler σ) (full thin : Chronicle σ) : Prop where
  idles : thin.machine.Idles full.machine
  reports : Thins (fun x => x.1.Idle handler ∧ x.2.kind ≠ .accepted) full.reports thin.reports

theorem tends_take (ht : c.machine.Tends h handler) (row : Row) :
    (c.take h row).machine.Tends h handler := by
  have hmet : (c.machine.attune row.reading).Tends h handler := ht.of_gist rfl
  rw [take_eq]
  exact (hmet.feed row.line).of_gist rfl

namespace Spares

theorem keep (hs : Spares handler full thin) (h : HandlerId) (row : Row) :
    Spares handler (full.take h row) (thin.take h row) := by
  obtain ⟨hfate, hidles⟩ : (full.feed h row).2 = (thin.feed h row).2
      ∧ (thin.feed h row).1.Idles (full.feed h row).1 :=
    Machine.feed_attune_congr hs.idles.gist row.reading h row.line
  rw [take_eq, take_eq, hfate]
  exact ⟨⟨hidles.gist, hidles.before⟩, hs.reports.append (.keep _ .nil)⟩

theorem drop (hs : Spares handler full thin) (ht : full.machine.Tends h handler) {row : Row}
    (hpace : full.machine.reading.Before row.reading) (hidle : row.Idle handler) :
    Spares handler (full.take h row) thin := by
  have hmet : (full.machine.attune row.reading).Tends h handler := ht.of_gist rfl
  obtain ⟨hidles, hkind⟩ : (full.machine.attune row.reading).Idles (full.feed h row).1
      ∧ (full.feed h row).2.kind ≠ .accepted := hmet.feed_idle rfl hidle
  have hreports := hs.reports.append (.drop (row, (full.feed h row).2) ⟨hidle, hkind⟩ .nil)
  rw [List.append_nil] at hreports
  rw [take_eq]
  exact ⟨⟨hidles.gist.trans hs.idles.gist, hs.idles.before.trans (hpace.trans hidles.before)⟩,
    hreports⟩

/-- The rest of a run is what it would be without the idle rows, and it could be as well. -/
theorem follow (hs : Spares handler full thin) (ht : full.machine.Tends h handler)
    {rows rows' : List Row} (hrows : Thins (Row.Idle handler) rows rows')
    (hpaced : full.Paced h rows) :
    Spares handler (full.follow h rows) (thin.follow h rows') ∧ thin.Paced h rows' := by
  induction hrows generalizing full thin with
  | nil => exact ⟨hs, trivial⟩
  | keep row _ ih =>
    obtain ⟨hspares, hrest⟩ := ih (hs.keep h row) (tends_take ht row) hpaced.2
    exact ⟨hspares, hs.idles.before.trans hpaced.1, hrest⟩
  | drop row hidle _ ih => exact ih (hs.drop ht hpaced.1 hidle) (tends_take ht row) hpaced.2

end Spares

/-- What a run that never saw some of the idle rows has in common with one that did. -/
structure Agrees (handler : Handler σ) (full thin : Chronicle σ) : Prop where
  accepted : thin.summary.accepted = full.summary.accepted
  released : thin.summary.released = full.summary.released
  reports : Thins (fun x => x.1.Idle handler) full.reports thin.reports
  depots : thin.machine.hub.depots = full.machine.hub.depots
  outside : thin.machine.hub.outside = full.machine.hub.outside

theorem Spares.agrees (hs : Spares handler full thin) (hfull : full.Accounts)
    (hthin : thin.Accounts) : Agrees handler full thin where
  accepted := by
    rw [hthin.accepted, hfull.accepted]
    exact hs.reports.countP_eq fun x hx => decide_eq_false hx.2
  released := by
    rw [hthin.released, hfull.released]
    refine hs.reports.countP_eq fun x hx => ?_
    exact Bool.eq_false_iff.2 fun hreleases => hx.2 (Fate.kind_of_releases hreleases)
  reports := hs.reports.imp fun _ hx => hx.1
  depots := hs.idles.depots.symm
  outside := hs.idles.outside.symm

end Chronicle

/-! ## Inputs -/

/-- A run over an input takes its lines one after another, up to the first that is no text. -/
theorem process_takes {c : Shutdown.Coordinator} (hc : c.requested = false) (s : Machine σ)
    (h : HandlerId) (input : List UInt8) :
    let lines := splitLines [] input
    (process c s h input).2.1 = (takeAll h (texts lines) (s, .zero)).1
      ∧ (process c s h input).2.2.summary = (takeAll h (texts lines) (s, .zero)).2
      ∧ (process c s h input).2.2.phase = lastPhase lines := by
  intro lines
  obtain ⟨left, hfinish⟩ := finish_takes (c := (begin c h input).1) (s := s)
    (r := (begin c h input).2) hc lines _ (Nat.le_succ _) rfl rfl
  have hprocess : process c s h input = _ := hfinish
  rw [hprocess]
  exact ⟨rfl, rfl, rfl⟩

/-- What the bytes in front of a line that is no text come to is all that an input comes to. -/
theorem process_of_none {c : Shutdown.Coordinator} (hc : c.requested = false) (s : Machine σ)
    (h : HandlerId) {input bad : List UInt8} {pre post : List (List UInt8)}
    (hlines : splitLines [] input = pre ++ bad :: post)
    (hpre : ∀ line ∈ pre, (Utf8.decode? line).isSome = true) (hbad : Utf8.decode? bad = none) :
    (process c s h input).2.2.phase = .broken Utf8.refusal
      ∧ ∃ front back, input = front ++ back ∧ splitLines [] front = pre
        ∧ (process c s h front).2.2.phase = .over
        ∧ (process c s h input).2.1 = (process c s h front).2.1
        ∧ (process c s h input).2.2.summary = (process c s h front).2.2.summary := by
  obtain ⟨front, back, hinput, hfront, -⟩ := exists_front pre hlines
  obtain ⟨hmachine, hsummary, hphase⟩ := process_takes hc s h input
  obtain ⟨hmachine', hsummary', hphase'⟩ := process_takes hc s h front
  have htexts : texts (splitLines [] input) = texts (splitLines [] front) := by
    rw [hlines, hfront, texts_append_of_none pre post hbad]
  refine ⟨?_, front, back, hinput, hfront, ?_, ?_, ?_⟩
  · have hlt : (texts (splitLines [] input)).length ≠ (splitLines [] input).length := by
      have := length_texts_le pre
      rw [htexts, hfront, hlines, List.length_append, List.length_cons]
      omega
    rw [hphase, lastPhase, if_neg hlt]
  · rw [hphase', hfront, lastPhase, if_pos (length_texts hpre)]
  · rw [hmachine, hmachine', htexts]
  · rw [hsummary, hsummary', htexts]

/-- One line never spoils another. Whatever was done on the machine before: when no shutdown is
requested, a run over an input takes its texts, each as soon as it can. However long each of them
keeps the run waiting, it has one fate that fits it and is counted once; and without some of the
idle lines, the others have the same fates and leave the same depots and the same outside. A line
that is no text ends the run after what the lines in front of it come to. -/
theorem no_line_spoils_another (outside : σ) (idOf : Nat → MessageId) (past : List (Move σ))
    (h : HandlerId) (handler : Handler σ) (c : Shutdown.Coordinator) (input : List UInt8)
    (hl : (Machine.initial outside idOf).Lawful past) :
    let s := (Machine.initial outside idOf).after past
    let lines := splitLines [] input
    s.hub.handler? h = some handler → s.hub.isLive h = true → c.requested = false →
    (∃ rows, rows.map Row.line = texts lines ∧ (Chronicle.start s).Paced h rows
        ∧ (process c s h input).2.1 = ((Chronicle.start s).follow h rows).machine
        ∧ (process c s h input).2.2.summary = ((Chronicle.start s).follow h rows).summary)
      ∧ (∀ rows, rows.map Row.line = texts lines → (Chronicle.start s).Paced h rows →
        let full := (Chronicle.start s).follow h rows
        full.reports.map Prod.fst = rows ∧ full.Accounts
          ∧ full.summary.lines = full.number .blank + full.summary.malformed
            + full.summary.accepted + full.summary.rejected
          ∧ full.summary.released ≤ full.summary.accepted
          ∧ ∀ rows', Thins (Row.Idle handler) rows rows' →
            (Chronicle.start s).Paced h rows'
              ∧ Chronicle.Agrees handler full ((Chronicle.start s).follow h rows'))
      ∧ ((∀ line ∈ lines, (Utf8.decode? line).isSome = true) →
        (texts lines).length = lines.length ∧ (process c s h input).2.2.phase = .over)
      ∧ (∀ pre bad post, lines = pre ++ bad :: post →
        (∀ line ∈ pre, (Utf8.decode? line).isSome = true) → Utf8.decode? bad = none →
        (process c s h input).2.2.phase = .broken Utf8.refusal
          ∧ ∃ front back, input = front ++ back ∧ splitLines [] front = pre
            ∧ (process c s h front).2.2.phase = .over
            ∧ (process c s h input).2.1 = (process c s h front).2.1
            ∧ (process c s h input).2.2.summary = (process c s h front).2.2.summary) := by
  intro s lines hh hlive hc
  have htends : s.Tends h handler :=
    ⟨Machine.orderly_after (Machine.orderly_initial outside idOf) past hl, hh, hlive⟩
  obtain ⟨hmachine, hsummary, hphase⟩ := process_takes hc s h input
  refine ⟨?_, fun rows hrows hpaced => ?_, fun hall => ?_, fun pre bad post hlines hpre hbad => ?_⟩
  · refine ⟨Chronicle.rowsOf h (.start s) (texts lines), Chronicle.line_rowsOf h _ _,
      Chronicle.paced_rowsOf h _ _, ?_, ?_⟩
    · rw [hmachine]
      exact congrArg Prod.fst (Chronicle.takeAll_eq_follow h (texts lines) (.start s))
    · rw [hsummary]
      exact congrArg Prod.snd (Chronicle.takeAll_eq_follow h (texts lines) (.start s))
  · intro full
    have hfull : full.Accounts := (Chronicle.accounts_start s).follow h rows
    refine ⟨Chronicle.rows_follow h rows (.start s), hfull, hfull.total, hfull.released_le,
      fun rows' hthins => ?_⟩
    have hstart : Chronicle.Spares handler (.start s) (.start s) := ⟨.refl s, .nil⟩
    obtain ⟨hspares, hpaced'⟩ := hstart.follow htends hthins hpaced
    exact ⟨hpaced', hspares.agrees hfull ((Chronicle.accounts_start s).follow h rows')⟩
  · have hlength := length_texts hall
    exact ⟨hlength, by rw [hphase, lastPhase, if_pos hlength]⟩
  · exact process_of_none hc s h hlines hpre hbad

section Example

open Shutdown (Coordinator)

/-- A handler that gathers by header and has an output. -/
def sorting : Handler Unit :=
  { Handler.standard 0 fun _ _ => .done (.ok ()) with output := some ⟨fun _ => .done (.ok ())⟩ }

theorem discreet_sorting : sorting.Discreet where
  process _ := .done _
  discard _ hc := by cases hc

def sortingRun : List (Move Unit) := [.openDepot none, .event (.build sorting)]

/-- An order of one message. -/
def singleOrder : String := "\x7b\"correlation_id\": \"a\", \"sequence_size\": 1\x7d"

/-- A blank line, one that is no record, one without a key, an order, and one that is no text. -/
def mixedLines : List UInt8 := Utf8.bytes ("\n?\n\x7b\x7d\n" ++ singleOrder ++ "\n") ++ [0xFF]

def mixedTexts : List (List Char) := [[], ['?'], ['\x7b', '\x7d'], singleOrder.toList]

theorem texts_mixedLines : texts (splitLines [] mixedLines) = mixedTexts := by decide +kernel

def mixedRows : List Row :=
  Chronicle.rowsOf 0 (.start ((Machine.initial () fun _ => ⟨""⟩).after sortingRun)) mixedTexts

theorem thins_mixedRows : Thins (Row.Idle sorting) mixedRows (mixedRows.drop 3) := by
  refine .drop _ (.inl rfl) (.drop _ (.inr fun r hr => ?_) (.drop _ (.inr fun r hr => ?_)
    (.keep _ .nil)))
  · have hparse : Record.parse (String.ofList ['?']) = .error .malformed := rfl
    cases hparse.symm.trans hr
  · have hparse : Record.parse (String.ofList ['\x7b', '\x7d']) = .ok Record.blank := rfl
    cases hparse.symm.trans hr
    rfl

/-- Of the mixed lines only the order counts, and what stands behind them ends the run. -/
theorem order_unspoiled :
    let s := (Machine.initial () fun _ => ⟨""⟩).after sortingRun
    (Machine.initial () fun _ => ⟨""⟩).Lawful sortingRun
      ∧ s.hub.handler? 0 = some sorting ∧ s.hub.isLive 0 = true
      ∧ Coordinator.initial.requested = false
      ∧ ((Chronicle.start s).follow 0 (mixedRows.drop 3)).summary.accepted
        = ((Chronicle.start s).follow 0 mixedRows).summary.accepted
      ∧ (process .initial s 0 mixedLines).2.2.phase = .broken Utf8.refusal := by
  have hlawful : (Machine.initial () fun _ => ⟨""⟩).Lawful sortingRun :=
    ⟨trivial, ⟨discreet_sorting, Nat.zero_lt_one⟩, trivial⟩
  obtain ⟨-, hrows, -, hbroken⟩ := no_line_spoils_another () (fun _ => ⟨""⟩) sortingRun 0 sorting
    .initial mixedLines hlawful rfl rfl rfl
  have hlines : splitLines [] mixedLines
      = [[], [63], [0x7b, 0x7d], Utf8.bytes singleOrder] ++ [[0xFF]] := by decide +kernel
  obtain ⟨hphase, -⟩ := hbroken _ _ _ hlines (by decide +kernel) (by decide +kernel)
  have hown : mixedRows.map Row.line = texts (splitLines [] mixedLines) := by
    rw [texts_mixedLines]
    exact Chronicle.line_rowsOf 0 mixedTexts _
  obtain ⟨-, -, -, -, hthins⟩ := hrows mixedRows hown (Chronicle.paced_rowsOf 0 mixedTexts _)
  exact ⟨hlawful, rfl, rfl, rfl, (hthins _ thins_mixedRows).2.accepted, hphase⟩

end Example

end Intake

end Collate
