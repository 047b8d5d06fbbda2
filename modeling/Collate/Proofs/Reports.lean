import Collate.Report

/-!
# A report tells one story

A failure is told three times: in one line for the operator, with all that it came from at debug
level, and as a chain on one line. The operator's line says what went wrong only if the operator can
mend it, and what is told at debug level is the chain, link by link. Both walk down from the failure
to its first cause (`Failure.lineage`), however deeply deliveries wrap each other
(`Report.tells_one_story`).
-/

namespace Collate

/-! ## What a failure came from -/

namespace Failure

/-- A failure and what it came from, down to the first cause. -/
def lineage (e : Failure) : List Failure :=
  match _h : e.source? with
  | none => [e]
  | some c => e :: lineage c
termination_by e.depth
decreasing_by exact depth_source _h

theorem lineage_of_none {e : Failure} (h : e.source? = none) : e.lineage = [e] := by
  rw [lineage]
  split
  · rfl
  · simp_all

theorem lineage_of_some {e c : Failure} (h : e.source? = some c) : e.lineage = e :: c.lineage := by
  rw [lineage]
  split <;> simp_all

theorem lineage_ne_nil (e : Failure) : e.lineage ≠ [] := by
  rw [lineage]
  split <;> simp

theorem lineage_eq_cons (e : Failure) : ∃ below, e.lineage = e :: below := by
  rw [lineage]
  split
  · exact ⟨[], rfl⟩
  · exact ⟨_, rfl⟩

/-- A failure is told with all that it came from. -/
theorem chain_eq (e : Failure) : e.chain = ": ".intercalate (e.lineage.map message) := by
  rw [chain]
  split
  · rename_i h
    rw [lineage_of_none h]
    rfl
  · rename_i c h
    rw [lineage_of_some h, List.map_cons,
      String.intercalate_cons_of_ne_nil (by simp [lineage_ne_nil]), chain_eq c]
termination_by e.depth
decreasing_by exact depth_source ‹_›

end Failure

/-! ## Who can mend it -/

/-- A failure has words for the operator if and only if the operator can mend it. -/
theorem HandlerError.isSome_userMessage? (e : HandlerError) :
    e.userMessage?.isSome = e.isActionable := by
  cases e with
  | correlation id => rfl
  | lockTimeout key milliseconds => rfl
  | store e => cases e <;> rfl
  | groupProcessing key source => cases source <;> rfl

theorem ConfigError.isSome_userMessage? (e : ConfigError) :
    e.userMessage?.isSome = e.isActionable := rfl

theorem StartupError.isSome_userMessage? (e : StartupError) :
    e.userMessage?.isSome = e.isActionable := by
  cases e with
  | config e => exact e.isSome_userMessage?
  | _ => rfl

namespace Report

/-! ## The records of a report -/

def detail (text : String) : Log.Record := ⟨.debug, .report, "DETAIL: " ++ text⟩

def causedBy (text : String) : Log.Record := ⟨.debug, .report, "CAUSED BY: " ++ text⟩

/-- What is said at error level. -/
def errors (journal : Log.Journal) : Log.Journal := journal.filter fun r => r.level = .error

/-- The causes that are reported are all that the failure came from, in this order. -/
theorem causes_eq (e : Failure) : causes e = e.lineage.tail.map fun c => causedBy c.message := by
  rw [causes]
  split
  · rename_i h
    rw [Failure.lineage_of_none h]
    rfl
  · rename_i c h
    obtain ⟨below, hbelow⟩ := c.lineage_eq_cons
    rw [causes_eq c, Failure.lineage_of_some h, List.tail_cons, hbelow]
    rfl
termination_by e.depth
decreasing_by exact Failure.depth_source ‹_›

theorem level_of_mem_causes {e : Failure} {r : Log.Record} (h : r ∈ causes e) :
    r.level = .debug := by
  rw [causes_eq] at h
  obtain ⟨c, -, rfl⟩ := List.mem_map.1 h
  rfl

section Reported

variable {ε : Type} [Reported ε]

theorem errors_records (e : ε) (context : String) :
    errors (records e context) = [⟨.error, .report, headline e context⟩] := by
  have hrest : (causes (Reported.failure e)).filter (fun r => r.level = .error) = [] :=
    List.filter_eq_nil_iff.2 fun r hr => by simp [level_of_mem_causes hr]
  rw [errors, records, List.filter_cons_of_pos (by simp), List.filter_cons_of_neg (by simp), hrest]

theorem headline_of_not_actionable {e : ε} (h : Reported.isActionable e = false)
    (context : String) : headline e context = context ++ " failed" := by
  rcases hm : Reported.userMessage? e with _ | message <;> simp [headline, h, hm, Option.filter]

theorem headline_of_actionable {e : ε} (h : Reported.isActionable e = true) {message : String}
    (hm : Reported.userMessage? e = some message) (context : String) :
    headline e context = context ++ ": " ++ message := by
  simp [headline, h, hm, Option.filter]

/-- The tellings of a failure agree with each other. -/
structure Consistent (e : ε) : Prop where
  /-- There are words for the operator if and only if the operator can mend the failure. -/
  words : (Reported.userMessage? e).isSome = true ↔ Reported.isActionable e = true
  /-- One record is at error level: what was being done and these words, or only the former. -/
  error : ∀ context, errors (records e context) =
    [⟨.error, .report, match Reported.userMessage? e with
      | some message => context ++ ": " ++ message
      | none => context ++ " failed"⟩]
  /-- At error level, failures that the operator cannot mend look all the same. -/
  alike : Reported.isActionable e = false → ∀ {ε' : Type} [Reported ε'] (e' : ε'),
    Reported.isActionable e' = false → ∀ context,
      errors (records e' context) = errors (records e context)
  /-- The records at debug level are the links of the chain, one by one. -/
  links : ∀ context, ∃ text causes,
    (records e context).filter (fun r => r.level = .debug) = detail text :: causes.map causedBy
      ∧ ": ".intercalate (text :: causes) = (Reported.failure e).chain

/-- A failure that has words for the operator exactly if it can be mended is told consistently. -/
theorem consistent_of_words {e : ε}
    (hw : (Reported.userMessage? e).isSome = Reported.isActionable e) : Consistent e where
  words := by rw [hw]
  error context := by
    rw [errors_records]
    rcases hm : Reported.userMessage? e with _ | message
    · rw [headline_of_not_actionable (by rw [← hw, hm]; rfl)]
    · rw [headline_of_actionable (by rw [← hw, hm]; rfl) hm]
  alike he ε' _ e' he' context := by
    rw [errors_records, errors_records, headline_of_not_actionable he,
      headline_of_not_actionable he']
  links context := by
    obtain ⟨below, hbelow⟩ := (Reported.failure e).lineage_eq_cons
    refine ⟨(Reported.failure e).message, below.map Failure.message, ?_, ?_⟩
    · have hdebug : (causes (Reported.failure e)).filter (fun r => r.level = .debug)
          = causes (Reported.failure e) :=
        List.filter_eq_self.2 fun r hr => by simp [level_of_mem_causes hr]
      rw [records, List.filter_cons_of_neg (by simp), List.filter_cons_of_pos (by simp), hdebug,
        causes_eq, hbelow, List.tail_cons, List.map_map]
      rfl
    · rw [Failure.chain_eq, hbelow, List.map_cons]

end Reported

/-- Whatever fails, in handling, in the configuration or at the start, and whatever deliveries wrap,
its report tells one story: the operator is told what went wrong if and only if that is for the
operator to mend, in one record at error level, and otherwise no more than what failed; the records
at debug level are the links of its chain. -/
theorem tells_one_story :
    (∀ e : HandlerError, Consistent e) ∧ (∀ e : ConfigError, Consistent e)
      ∧ ∀ e : StartupError, Consistent e :=
  ⟨fun e => consistent_of_words e.isSome_userMessage?,
    fun e => consistent_of_words e.isSome_userMessage?,
    fun e => consistent_of_words e.isSome_userMessage?⟩

end Report

end Collate
