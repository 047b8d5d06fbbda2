import Collate.Config
import Collate.Proofs.Documents

/-!
# Settings in three layers

A setting is what the command line says, or else what the configuration file says, or else the
default, and only the outcome is checked. So two files that agree wherever the command line is
silent come to the same configuration or to the same complaint, whatever else they say
(`Config.resolve_layers`). The complaint names the first field that is out of bounds.
-/

namespace Collate

open Toml.Shape

/-- What a table says about a part of one of its structures, if anything. -/
def Toml.Table.stated? {α τ : Type} (t : Toml.Table) (topic : String) (slots : List (Slot τ))
    (name : String) (read? : Toml.Value → Option α) : Option α :=
  ((t.get? topic).bind (part? slots name)).bind read?

theorem Toml.Table.stated?_map {α β τ : Type} (t : Toml.Table) (topic : String)
    (slots : List (Slot τ)) (name : String) (read? : Toml.Value → Option α) (f : α → β) :
    t.stated? topic slots name (fun v => (read? v).map f)
      = (t.stated? topic slots name read?).map f := by
  rcases h : (t.get? topic).bind (part? slots name) with _ | v <;> simp [stated?, h]

/-- A field of a structure within a structure is what a table says of it, or is what it was. -/
theorem Toml.Shape.Fills.field_eq {α σ τ : Type} {root : List (Slot σ)} {slots : List (Slot τ)}
    {topic name : String} {first : τ} {part : σ → τ} {read? : Toml.Value → Option α}
    {field : τ → α} (hroot : Fills root topic (structured? slots first) part)
    (hslots : Fills slots name read? field) (hnames : (slots.map Slot.name).Nodup)
    {t : Toml.Table} (ht : t.value.Distinct) {start s : σ} (hstart : part start = first)
    (hs : named? root t.rows start = some s) :
    field (part s) = (t.stated? topic slots name read?).getD (field first) := by
  cases ht with
  | table hordered hrows =>
    have hpart := named?_part hroot hordered hs
    rw [hstart] at hpart
    rcases hget : Rows.get? t.rows topic with _ | v
    · rw [hget, Option.elim_none] at hpart
      simp [Toml.Table.stated?, Toml.Table.get?, hget, hpart]
    · rw [hget, Option.elim_some] at hpart
      have hfield := structured?_part hslots hnames (hrows _ (Rows.mem_of_get? hget)) hpart
      rcases hv : part? slots name v with _ | w
      · rw [hv, Option.elim_none] at hfield
        simp [Toml.Table.stated?, Toml.Table.get?, hget, hv, hfield]
      · rw [hv, Option.elim_some] at hfield
        simp [Toml.Table.stated?, Toml.Table.get?, hget, hv, hfield]

/-! ## Names of levels -/

namespace Log

def levelNames : List String := ["off", "error", "warn", "info", "debug", "trace"]

/-- Whether a name is that of a level, in letters of either case. -/
def NamesLevel (name : String) : Prop :=
  ∃ level ∈ levelNames, name.toList.map Char.toLower = level.toList.map Char.toLower

instance (name : String) : Decidable (NamesLevel name) :=
  inferInstanceAs (Decidable (∃ level ∈ levelNames, _))

theorem isSome_limit?_iff (name : String) : (limit? name).isSome = true ↔ NamesLevel name := by
  have hlower : ∀ level ∈ levelNames, level.toList.map Char.toLower = level.toList := by decide
  have hname : NamesLevel name
      ↔ String.ofList (name.toList.map Char.toLower) ∈ levelNames := by
    refine ⟨fun ⟨level, hmem, heq⟩ => ?_, fun hmem => ⟨_, hmem, ?_⟩⟩
    · rwa [heq, hlower level hmem, String.ofList_toList]
    · rw [hlower _ hmem, String.toList_ofList]
  rw [hname]
  generalize hl : String.ofList (name.toList.map Char.toLower) = lower
  unfold limit?
  simp only [hl, levelNames, List.mem_cons, List.not_mem_nil, or_false]
  split_ifs <;> simp_all

end Log

namespace Config

/-! ## What a file says -/

section Parts

theorem fills_slots : Fills slots "logging" (structured? logSlots standard.logging) logging
    ∧ Fills slots "handler" (structured? handlerSlots standard.handler) handler
    ∧ Fills slots "reaper" (structured? reaperSlots standard.reaper) reaper
    ∧ Fills slots "store" (structured? storeSlots standard.capacity) capacity
    ∧ Fills slots "output" (structured? outputSlots standard.output) output := by
  refine ⟨?_, ?_, ?_, ?_, ?_⟩ <;> constructor <;> simp [slots, slot]

theorem fills_logSlots : Fills logSlots "level" text? LogSettings.level
    ∧ Fills logSlots "format" (variant? Log.Format.ofName?) LogSettings.format
    ∧ Fills logSlots "file" (fun v => (text? v).map some) LogSettings.file
    ∧ Fills logSlots "color" boolean? LogSettings.color := by
  refine ⟨?_, ?_, ?_, ?_⟩ <;> constructor <;> simp [logSlots, slot] <;> grind

theorem fills_handlerSlots :
    Fills handlerSlots "lock_timeout_ms" (fun v => (natural? Numeral.maxU64 v).map some)
        HandlerSettings.lockTimeoutMs
    ∧ Fills handlerSlots "expiry_action" (variant? ExpiryAction.ofName?)
        HandlerSettings.expiryAction := by
  refine ⟨?_, ?_⟩ <;> constructor <;> simp [handlerSlots, slot]

theorem fills_reaperSlots :
    Fills reaperSlots "group_timeout_ms" (natural? Numeral.maxU64) ReaperSettings.groupTimeoutMs
    ∧ Fills reaperSlots "interval_ms" (natural? Numeral.maxU64) ReaperSettings.intervalMs
    ∧ Fills reaperSlots "expire_on_stop" boolean? ReaperSettings.expireOnStop := by
  refine ⟨?_, ?_, ?_⟩ <;> constructor <;> simp [reaperSlots, slot] <;> grind

theorem fills_storeSlots :
    Fills storeSlots "capacity" (fun v => (natural? Numeral.maxU64 v).map some) id := by
  constructor <;> simp [storeSlots, slot]

theorem fills_outputSlots : Fills outputSlots "append_newline" boolean? OutputSettings.appendNewline
    ∧ Fills outputSlots "buffer_size" (natural? Numeral.maxU64) OutputSettings.bufferSize := by
  refine ⟨?_, ?_⟩ <;> constructor <;> simp [outputSlots, slot] <;> grind

end Parts

/-- The document of the configuration file: an empty one if no file is named and the usual one is
not there. -/
def document? (look : String → Found) (usual named : Option String) : Option Toml.Table :=
  match named.or usual with
  | none => some .root
  | some path =>
    match look path with
    | .file bytes => (Utf8.decode? bytes).bind fun cs => Toml.parse? (String.ofList cs)
    | .directory => none
    | .nothing _ => if named.isSome then none else some .root

/-- A configuration that was loaded was read from a document. -/
theorem document_of_load {look : String → Found} {usual named : Option String} {c : Config}
    (h : load look usual named = .ok c) :
    ∃ t, document? look usual named = some t ∧ t.value.Distinct
      ∧ named? slots t.rows standard = some c := by
  have hdefault : standard = c → ∃ t, some Toml.Table.root = some t ∧ t.value.Distinct
      ∧ named? slots t.rows standard = some c := fun heq =>
    ⟨.root, rfl, Toml.Table.distinct_of_nil _, congrArg some heq⟩
  have hfile : ∀ {path bytes}, decode path (.file bytes) = .ok c →
      ∃ t, ((Utf8.decode? bytes).bind fun cs => Toml.parse? (String.ofList cs)) = some t
        ∧ t.value.Distinct ∧ named? slots t.rows standard = some c := fun {path bytes} h => by
    rcases hcs : Utf8.decode? bytes with _ | cs
    · simp [decode, hcs] at h
    rcases ht : Toml.parse? (String.ofList cs) with _ | t
    · simp [decode, hcs, parse?, ht] at h
    rcases hc : named? slots t.rows standard with _ | c'
    · simp [decode, hcs, parse?, ht, hc] at h
    · simp only [decode, hcs, parse?, ht, Option.bind_some, hc, Except.ok.injEq] at h
      exact ⟨t, by simp [ht], Toml.distinct_of_parse? ht, by rw [hc, h]⟩
  unfold load at h
  split at h
  · rename_i path
    rcases hlook : look path with why | _ | bytes <;> simp only [hlook, reduceCtorEq] at h
    · cases h
    · simpa [document?, hlook] using hfile h
  · rename_i path
    rcases hlook : look path with why | _ | bytes <;> simp only [hlook] at h
    · simpa [document?, hlook] using hdefault (by simpa using h)
    · cases h
    · simpa [document?, hlook] using hfile h
  · simpa [document?] using hdefault (by simpa using h)

/-- Each setting is what the command line says, or else the file, or else the default. -/
structure Layers (a : Arguments) (t : Toml.Table) (c : Config) : Prop where
  level : c.logging.level = (a.logLevel.or (t.stated? "logging" logSlots "level" text?)).getD
    standard.logging.level
  format : c.logging.format =
    (a.logFormat.or (t.stated? "logging" logSlots "format" (variant? Log.Format.ofName?))).getD
      standard.logging.format
  file : c.logging.file =
    (a.logFile.or (t.stated? "logging" logSlots "file" text?)).or standard.logging.file
  color : c.logging.color =
    (t.stated? "logging" logSlots "color" boolean?).getD standard.logging.color
  lockTimeoutMs : c.handler.lockTimeoutMs =
    (a.lockTimeoutMs.or
      (t.stated? "handler" handlerSlots "lock_timeout_ms" (natural? Numeral.maxU64))).or
        standard.handler.lockTimeoutMs
  expiryAction : c.handler.expiryAction =
    (a.expiryAction.or
      (t.stated? "handler" handlerSlots "expiry_action" (variant? ExpiryAction.ofName?))).getD
        standard.handler.expiryAction
  groupTimeoutMs : c.reaper.groupTimeoutMs =
    (a.groupTimeoutMs.or
      (t.stated? "reaper" reaperSlots "group_timeout_ms" (natural? Numeral.maxU64))).getD
        standard.reaper.groupTimeoutMs
  intervalMs : c.reaper.intervalMs =
    (a.reaperIntervalMs.or
      (t.stated? "reaper" reaperSlots "interval_ms" (natural? Numeral.maxU64))).getD
        standard.reaper.intervalMs
  expireOnStop : c.reaper.expireOnStop =
    (t.stated? "reaper" reaperSlots "expire_on_stop" boolean?).getD standard.reaper.expireOnStop
  capacity : c.capacity =
    (a.capacity.or (t.stated? "store" storeSlots "capacity" (natural? Numeral.maxU64))).or
      standard.capacity
  appendNewline : c.output.appendNewline =
    (a.newline.or (t.stated? "output" outputSlots "append_newline" boolean?)).getD
      standard.output.appendNewline
  bufferSize : c.output.bufferSize =
    (t.stated? "output" outputSlots "buffer_size" (natural? Numeral.maxU64)).getD
      standard.output.bufferSize

/-- What the command line leaves alone comes from the document, or else is the default. -/
theorem layers_apply {t : Toml.Table} (ht : t.value.Distinct) {c : Config}
    (hc : named? slots t.rows standard = some c) (a : Arguments) : (c.apply a).Layers a t := by
  obtain ⟨hlogging, hhandler, hreaper, hstore, houtput⟩ := fills_slots
  obtain ⟨hlevel, hformat, hfile, hcolor⟩ := fills_logSlots
  obtain ⟨hlock, haction⟩ := fills_handlerSlots
  obtain ⟨htimeout, hinterval, hstop⟩ := fills_reaperSlots
  obtain ⟨hnewline, hbuffer⟩ := fills_outputSlots
  have hlogNames : (logSlots.map Slot.name).Nodup := by decide
  have hhandlerNames : (handlerSlots.map Slot.name).Nodup := by decide
  have hreaperNames : (reaperSlots.map Slot.name).Nodup := by decide
  have hstoreNames : (storeSlots.map Slot.name).Nodup := by decide
  have houtputNames : (outputSlots.map Slot.name).Nodup := by decide
  -- a setting of its own layer below the command line
  have hover : ∀ {α : Type} (given said : Option α) (first now : α), now = said.getD first →
      given.getD now = (given.or said).getD first := by
    rintro α (_ | x) said first now rfl <;> rfl
  -- the same for a setting that need not have a value
  have hoverSome : ∀ {α : Type} (given said first now : Option α),
      now = (said.map some).getD first → given.or now = (given.or said).or first := by
    rintro α (_ | x) (_ | y) first now rfl <;> rfl
  exact {
    level := hover _ _ _ _ (hlogging.field_eq hlevel hlogNames ht rfl hc)
    format := hover _ _ _ _ (hlogging.field_eq hformat hlogNames ht rfl hc)
    file := hoverSome _ _ _ _ (by
      rw [← Toml.Table.stated?_map]
      exact hlogging.field_eq hfile hlogNames ht rfl hc)
    color := hlogging.field_eq (s := c) hcolor hlogNames ht rfl hc
    lockTimeoutMs := hoverSome _ _ _ _ (by
      rw [← Toml.Table.stated?_map]
      exact hhandler.field_eq hlock hhandlerNames ht rfl hc)
    expiryAction := hover _ _ _ _ (hhandler.field_eq haction hhandlerNames ht rfl hc)
    groupTimeoutMs := hover _ _ _ _ (hreaper.field_eq htimeout hreaperNames ht rfl hc)
    intervalMs := hover _ _ _ _ (hreaper.field_eq hinterval hreaperNames ht rfl hc)
    expireOnStop := hreaper.field_eq (s := c) hstop hreaperNames ht rfl hc
    capacity := hoverSome _ _ _ _ (by
      rw [← Toml.Table.stated?_map]
      exact hstore.field_eq fills_storeSlots hstoreNames ht rfl hc)
    appendNewline := hover _ _ _ _ (houtput.field_eq hnewline houtputNames ht rfl hc)
    bufferSize := houtput.field_eq (s := c) hbuffer houtputNames ht rfl hc }

/-! ## Two files -/

/-- Two configurations agree on every setting that the command line leaves alone. -/
structure AgreesBut (a : Arguments) (c c' : Config) : Prop where
  level : a.logLevel = none → c.logging.level = c'.logging.level
  format : a.logFormat = none → c.logging.format = c'.logging.format
  file : a.logFile = none → c.logging.file = c'.logging.file
  color : c.logging.color = c'.logging.color
  lockTimeoutMs : a.lockTimeoutMs = none → c.handler.lockTimeoutMs = c'.handler.lockTimeoutMs
  expiryAction : a.expiryAction = none → c.handler.expiryAction = c'.handler.expiryAction
  groupTimeoutMs : a.groupTimeoutMs = none → c.reaper.groupTimeoutMs = c'.reaper.groupTimeoutMs
  intervalMs : a.reaperIntervalMs = none → c.reaper.intervalMs = c'.reaper.intervalMs
  expireOnStop : c.reaper.expireOnStop = c'.reaper.expireOnStop
  capacity : a.capacity = none → c.capacity = c'.capacity
  appendNewline : a.newline = none → c.output.appendNewline = c'.output.appendNewline
  bufferSize : c.output.bufferSize = c'.output.bufferSize

theorem AgreesBut.apply_eq {a : Arguments} {c c' : Config} (h : AgreesBut a c c') :
    c.apply a = c'.apply a := by
  have hgetD : ∀ {α : Type} {given : Option α} {x y : α}, (given = none → x = y) →
      given.getD x = given.getD y := by
    rintro α (_ | z) x y hxy
    · exact hxy rfl
    · rfl
  have hor : ∀ {α : Type} {given x y : Option α}, (given = none → x = y) →
      given.or x = given.or y := by
    rintro α (_ | z) x y hxy
    · exact hxy rfl
    · rfl
  simp only [apply, hgetD h.level, hgetD h.format, hor h.file, h.color, hor h.lockTimeoutMs,
    hgetD h.expiryAction, hgetD h.groupTimeoutMs, hgetD h.intervalMs, h.expireOnStop,
    hor h.capacity, hgetD h.appendNewline, h.bufferSize]

/-- Once applied, the command line has no more to say. -/
theorem apply_apply (c : Config) (a : Arguments) : (c.apply a).apply a = c.apply a := by
  have hgetD : ∀ {α : Type} (given : Option α) (x : α), given.getD (given.getD x) = given.getD x :=
    by rintro α (_ | y) x <;> rfl
  have hor : ∀ {α : Type} (given x : Option α), given.or (given.or x) = given.or x := by
    rintro α (_ | y) x <;> rfl
  simp only [apply, hgetD, hor]

/-! ## What is out of bounds -/

/-- All that is out of bounds, in the order in which it is looked at. -/
def faults (c : Config) : List ConfigError :=
  (if Log.NamesLevel c.logging.level then []
    else [.validation "logging.level" s!"'{c.logging.level}' is not a log level"])
  ++ (if 0 < c.reaper.groupTimeoutMs then []
    else [.validation "reaper.group_timeout_ms" "must be greater than 0"])
  ++ (if 0 < c.reaper.intervalMs then []
    else [.validation "reaper.interval_ms" "must be greater than 0"])
  ++ (if c.capacity ≠ some 0 then []
    else [.validation "store.capacity" "must be greater than 0 when set"])

theorem validate_eq (c : Config) :
    c.validate = match c.faults.head? with
      | none => .ok ()
      | some e => .error e := by
  have hlevel := Log.isSome_limit?_iff c.logging.level
  unfold validate faults
  rcases hl : Log.limit? c.logging.level with _ | limit <;> rw [hl] at hlevel
  · have hno : ¬Log.NamesLevel c.logging.level := fun h => by simpa using hlevel.2 h
    simp [hno]
  · have hyes : Log.NamesLevel c.logging.level := hlevel.1 rfl
    by_cases htimeout : c.reaper.groupTimeoutMs = 0
    · simp [hyes, htimeout]
    by_cases hinterval : c.reaper.intervalMs = 0
    · simp [hyes, Nat.pos_of_ne_zero htimeout, htimeout, hinterval]
    by_cases hcapacity : c.capacity = some 0 <;>
      simp [hyes, Nat.pos_of_ne_zero htimeout, htimeout, Nat.pos_of_ne_zero hinterval, hinterval,
        hcapacity]

theorem faults_eq_nil_iff (c : Config) :
    c.faults = [] ↔ Log.NamesLevel c.logging.level ∧ 0 < c.reaper.groupTimeoutMs
      ∧ 0 < c.reaper.intervalMs ∧ c.capacity ≠ some 0 := by
  simp [faults, Nat.pos_iff_ne_zero]

theorem resolve_eq {look : String → Found} {usual : Option String} {a : Arguments} {c : Config}
    (hc : load look usual a.configFile = .ok c) :
    resolve look usual a = match (c.apply a).faults.head? with
      | none => .ok (c.apply a)
      | some e => .error e := by
  simp only [resolve, hc, validate_eq]
  cases (c.apply a).faults.head? <;> rfl

theorem load_of_resolve {look : String → Found} {usual : Option String} {a : Arguments}
    {r : Config} (hr : resolve look usual a = .ok r) :
    ∃ c, load look usual a.configFile = .ok c ∧ r = c.apply a ∧ r.faults = [] := by
  rcases hc : load look usual a.configFile with e | c
  · simp [resolve, hc] at hr
  rw [resolve_eq hc] at hr
  rcases hf : (c.apply a).faults with _ | ⟨e, more⟩ <;> simp [hf] at hr
  exact ⟨c, rfl, hr.symm, hr ▸ hf⟩

end Config

/-- The command line itself is out of bounds. -/
def Arguments.Faulty (a : Arguments) : Prop :=
  (∃ level, a.logLevel = some level ∧ ¬Log.NamesLevel level) ∨ a.groupTimeoutMs = some 0
    ∨ a.reaperIntervalMs = some 0 ∨ a.capacity = some 0

/-- The command line gives every setting that has bounds, and within them. -/
structure Arguments.Settles (a : Arguments) : Prop where
  level : ∃ level, a.logLevel = some level ∧ Log.NamesLevel level
  groupTimeoutMs : ∃ n, a.groupTimeoutMs = some n ∧ 0 < n
  intervalMs : ∃ n, a.reaperIntervalMs = some n ∧ 0 < n
  capacity : ∃ n, a.capacity = some n ∧ 0 < n

theorem Arguments.Faulty.faults_ne_nil {a : Arguments} (h : a.Faulty) (c : Config) :
    (c.apply a).faults ≠ [] := by
  rw [Ne, Config.faults_eq_nil_iff]
  rintro ⟨hlevel, htimeout, hinterval, hcapacity⟩
  obtain ⟨level, heq, hno⟩ | heq | heq | heq := h
  · simp only [Config.apply, heq, Option.getD_some] at hlevel
    exact hno hlevel
  · simp [Config.apply, heq] at htimeout
  · simp [Config.apply, heq] at hinterval
  · simp [Config.apply, heq] at hcapacity

theorem Arguments.Settles.faults_eq_nil {a : Arguments} (h : a.Settles) (c : Config) :
    (c.apply a).faults = [] := by
  obtain ⟨⟨level, hlevel, hname⟩, ⟨n, hn, hpos⟩, ⟨m, hm, hpos'⟩, k, hk, hpos''⟩ := h
  rw [Config.faults_eq_nil_iff]
  simp [Config.apply, hlevel, hn, hm, hk, hname, hpos, hpos', Nat.ne_of_gt hpos'']

namespace Config

/-- A command line and two configuration files that agree on every setting that it leaves alone come
to the same configuration or the same complaint. In a configuration each setting is what the command
line says, or else the file, or else the default, and to say the same once more changes nothing. The
outcome alone is checked: it is accepted if and only if all is within bounds, and otherwise the
complaint is the first there is. So a command line out of bounds is refused with any file, and one
that gives all that has bounds, within them, is accepted with any file that can be read. -/
theorem resolve_layers {look look' : String → Found} {usual : Option String} {a : Arguments}
    {c c' : Config} (hc : load look usual a.configFile = .ok c)
    (hc' : load look' usual a.configFile = .ok c') (hagree : AgreesBut a c c') :
    resolve look usual a = resolve look' usual a
      ∧ (∀ r, resolve look usual a = .ok r →
        ∃ t, document? look usual a.configFile = some t ∧ r.Layers a t)
      ∧ (c.apply a).apply a = c.apply a
      ∧ ((∃ r, resolve look usual a = .ok r) ↔
        Log.NamesLevel (a.logLevel.getD c.logging.level)
          ∧ 0 < a.groupTimeoutMs.getD c.reaper.groupTimeoutMs
          ∧ 0 < a.reaperIntervalMs.getD c.reaper.intervalMs ∧ a.capacity.or c.capacity ≠ some 0)
      ∧ (∀ e, resolve look usual a = .error e ↔ (c.apply a).faults.head? = some e)
      ∧ (a.Faulty → ∀ look usual r, resolve look usual a ≠ .ok r)
      ∧ (a.Settles → ∀ look usual c, load look usual a.configFile = .ok c →
        resolve look usual a = .ok (c.apply a)) := by
  have hresolve := resolve_eq hc
  refine ⟨?_, fun r hr => ?_, apply_apply c a, ?_, fun e => ?_, fun hfaulty look usual r hr => ?_,
    fun hsettles look usual c hc => ?_⟩
  · rw [hresolve, resolve_eq hc', hagree.apply_eq]
  · obtain ⟨c₁, hc₁, rfl, -⟩ := load_of_resolve hr
    obtain ⟨t, ht, hdistinct, hread⟩ := document_of_load hc₁
    exact ⟨t, ht, layers_apply hdistinct hread a⟩
  · have hbounds : (∃ r, resolve look usual a = .ok r) ↔ (c.apply a).faults = [] := by
      rw [hresolve]
      rcases (c.apply a).faults with _ | ⟨e, more⟩ <;> simp
    exact hbounds.trans (faults_eq_nil_iff (c.apply a))
  · rw [hresolve]
    rcases (c.apply a).faults with _ | ⟨e', more⟩ <;> simp
  · obtain ⟨c₁, -, rfl, hnone⟩ := load_of_resolve hr
    exact hfaulty.faults_ne_nil c₁ hnone
  · rw [resolve_eq hc, hsettles.faults_eq_nil c]
    rfl

/-- A file of this text is under every name. -/
def everywhere (text : String) : String → Found := fun _ => .file (Utf8.bytes text)

theorem load_everywhere {text path : String} {usual : Option String} {c : Config}
    (htext : Utf8.decode? (Utf8.bytes text) = some text.toList) (hparse : parse? text = some c) :
    load (everywhere text) usual (some path) = .ok c := by
  simp [load, everywhere, decode, htext, hparse]

/-- A command line that says where the configuration is and how often to look for groups that have
waited. -/
def often : Arguments := { (default : Arguments) with
  configFile := some "c.toml", reaperIntervalMs := some 5 }

/-- An interval of no time in a file does no harm once the command line says another one. -/
theorem resolve_layers_overridden :
    resolve (everywhere "[reaper]\ninterval_ms = 0\n[store]\ncapacity = 8") none often
      = resolve (everywhere "[store]\ncapacity = 8") none often :=
  have hbad : load (everywhere "[reaper]\ninterval_ms = 0\n[store]\ncapacity = 8") none
      often.configFile = .ok { standard with
        reaper := { standard.reaper with intervalMs := 0 }, capacity := some 8 } :=
    load_everywhere (by decide +kernel) (by decide +kernel)
  have hgood : load (everywhere "[store]\ncapacity = 8") none often.configFile
      = .ok { standard with capacity := some 8 } :=
    load_everywhere (by decide +kernel) (by decide +kernel)
  (resolve_layers hbad hgood (by constructor <;> simp [often])).1

end Config

end Collate
