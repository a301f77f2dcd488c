import BitCalculus.Prompt
import BitCalculus.Settings.Document

/-!
# Settings at the prompt

A change of settings at the prompt takes two steps: a copy of the settings is changed and checked,
and then strategy and log level are taken over from it. The check covers everything that the second
step could find wrong, however settings are decoded and whatever a failed decoding leaves behind. So
the settings of a prompt stay valid, and the strategy in use is always the one that they choose.
-/

namespace BitCalculus

/-! ### What leaves the choices alone -/

namespace Desk

/-- Settings and strategy are the same on both desks. -/
structure SameChoices (d e : Desk) : Prop where
  settings : e.settings = d.settings
  plan : e.session.plan = d.session.plan

theorem SameChoices.refl (d : Desk) : d.SameChoices d :=
  ⟨rfl, rfl⟩

/-- A run leaves the plan of evaluation alone. -/
theorem plan_run (s : Session) (p : Program) : (s.run p).2.plan = s.plan := by
  unfold Session.run
  split <;> rfl

end Desk

namespace Prompt

theorem sameChoices_evaluate (d : Desk) (source text : Bytes) :
    d.SameChoices (evaluate d source text).2.2 := by
  unfold evaluate
  split
  · split <;> exact .refl d
  · next p lastId _ => exact ⟨rfl, Desk.plan_run d.session p⟩

theorem sameChoices_dump (d : Desk) (text : Bytes) : d.SameChoices (dump d text).2 := by
  unfold dump
  split <;> exact ⟨rfl, rfl⟩

end Prompt

section Sizes

variable [SizeUnits]

/-! ### Valid settings -/

theorem Settings.IsValid.exists_strategy {s : Settings} (h : s.IsValid) :
    ∃ strategy, s.chosenStrategy = .ok strategy := by
  unfold IsValid firstFault at h
  split at h
  · cases h
  · next strategy chosen => exact ⟨strategy, chosen⟩

theorem Settings.IsValid.exists_level {s : Settings} (h : s.IsValid) :
    ∃ level, LogLevel.ofName? s.logLevel = some level := by
  cases named : LogLevel.ofName? s.logLevel with
  | some level => exact ⟨level, rfl⟩
  | none =>
    unfold IsValid firstFault at h
    rw [named] at h
    split at h
    · cases h
    · split at h
      · cases h
      · split at h <;> cases h

namespace Desk

/-- The settings are valid, and the strategy in use is the one that they choose. -/
structure IsSettled (d : Desk) : Prop where
  valid : d.settings.IsValid
  chosen : d.settings.chosenStrategy = .ok d.session.plan.strategy

/-- Valid settings can be taken over, and then their strategy is in use. -/
theorem exists_applySettings {d : Desk} (h : d.settings.IsValid) :
    ∃ e : Desk, d.applySettings = .ok e ∧ e.settings = d.settings ∧ e.IsSettled := by
  obtain ⟨strategy, chosen⟩ := h.exists_strategy
  obtain ⟨level, named⟩ := h.exists_level
  refine ⟨{ d with
    level, session := { d.session with plan := { d.session.plan with strategy } } }, ?_, rfl, h,
    chosen⟩
  rw [applySettings, chosen]
  dsimp only
  rw [named]

theorem IsSettled.of_sameChoices {d e : Desk} (h : d.IsSettled) (same : d.SameChoices e) :
    e.IsSettled := by
  refine ⟨?_, ?_⟩
  · rw [same.settings]
    exact h.valid
  · rw [same.settings, same.plan]
    exact h.chosen

end Desk

namespace Prompt

/-! ### Commands and entries -/

/-- The key and the value in a command to change a setting. -/
def setting? (text : Bytes) : Option (Bytes × Bytes) :=
  if (text.trim.cut 32).1 = lit ":set" then
    let (key, value) := (text.trim.cut 32).2.trim.cut 32
    some (key, value.trim)
  else none

theorem command_of_setting {text key value : Bytes} (h : setting? text = some (key, value))
    (format : SettingsFormat) (d : Desk) : command format d text = change format d key value := by
  unfold setting? at h
  split at h
  · next name =>
    cases h
    rw [command]
    simp only [name]
    rfl
  · cases h

/-- Only a command to change a setting can change settings or strategy. -/
theorem sameChoices_command {text : Bytes} (h : setting? text = none) (format : SettingsFormat)
    (d : Desk) : d.SameChoices (command format d text).2 := by
  have name : (text.trim.cut 32).1 ≠ lit ":set" := by
    intro name
    simp [setting?, name] at h
  unfold command
  dsimp only
  split
  · exact .refl d
  · split
    · exact sameChoices_dump d _
    · split
      · exact .refl d
      · split <;> exact .refl d

/-- A change that is accepted is taken over. -/
theorem change_accepted {format : SettingsFormat} {d : Desk} {key value : Bytes} {s : Settings}
    (h : d.settings.change format.decoder key value = .ok s) :
    ∃ e : Desk, { d with settings := s }.applySettings = .ok e ∧
      change format d key value = ([], e) ∧ e.settings = s ∧ e.IsSettled := by
  obtain ⟨e, applied, same, settled⟩ :=
    Desk.exists_applySettings (d := { d with settings := s }) (Settings.isValid_of_change h)
  refine ⟨e, applied, ?_, same, settled⟩
  simp [change, h, applied]

/-- What is asked of a prompt: that it obeys a command or that it runs an entry. -/
inductive Request where
  | command (text : Bytes)
  | entry (source text : Bytes)

/-- The desk after a request. -/
def serve (format : SettingsFormat) (d : Desk) : Request → Desk
  | .command text => (command format d text).2
  | .entry source text => (evaluate d source text).2.2

/-- The desk after several requests. -/
def serveAll (format : SettingsFormat) (d : Desk) (requests : List Request) : Desk :=
  requests.foldl (serve format) d

theorem settled_serve (format : SettingsFormat) {d : Desk} (h : d.IsSettled) (request : Request) :
    (serve format d request).IsSettled := by
  cases request with
  | command text =>
    rw [serve]
    cases asked : setting? text with
    | none => exact h.of_sameChoices (sameChoices_command asked format d)
    | some setting =>
      rw [command_of_setting asked]
      cases changed : d.settings.change format.decoder setting.1 setting.2 with
      | error e =>
        rw [change_rejected changed]
        exact h
      | ok s =>
        obtain ⟨e, -, shown, -, settled⟩ := change_accepted changed
        rw [shown]
        exact settled
  | entry source text => exact h.of_sameChoices (sameChoices_evaluate d source text)

theorem settled_serveAll (format : SettingsFormat) {d : Desk} (h : d.IsSettled)
    (requests : List Request) : (serveAll format d requests).IsSettled := by
  induction requests generalizing d with
  | nil => exact h
  | cons request requests ih => exact ih (settled_serve format h request)

/-- What a prompt does with what is typed is a sequence of requests. -/
theorem exists_requests (format : SettingsFormat) (d : Desk) (pending : Bytes) (count : Nat)
    (entries : List Entry) :
    ∃ requests, (handle format d pending count entries).2 = serveAll format d requests := by
  induction entries generalizing d pending count with
  | nil => exact ⟨[], rfl⟩
  | cons entry entries ih =>
    cases entry with
    | interrupt typed =>
      rw [handle]
      split
      · exact ⟨[], rfl⟩
      · exact ih d [] count
    | line typed =>
      rw [handle]
      dsimp only
      split
      · exact ih d pending count
      · split
        · obtain ⟨requests, served⟩ := ih (command format d (pending ++ typed)).2 pending count
          exact ⟨.command (pending ++ typed) :: requests, served⟩
        · obtain ⟨requests, served⟩ := ih (evaluate d _ (pending ++ typed)).2.2 _ (count + 1)
          exact ⟨.entry _ (pending ++ typed) :: requests, served⟩

/-- A prompt that starts settled is settled whenever it stops, whatever was typed. -/
theorem settled_run (format : SettingsFormat) {d : Desk} (h : d.IsSettled) (input : Bytes) :
    (run format d input).2.IsSettled := by
  obtain ⟨requests, served⟩ := exists_requests format d [] 0 (entries [] input.glyphs)
  rw [run, served]
  exact settled_serveAll format h requests

end Prompt

/-- However settings are decoded and sizes are read: after any commands and entries at a prompt that
started with valid settings and the strategy that they choose, the settings are valid and the
strategy in use is the one that they choose. A change that is refused then shows why and changes
nothing at all. A change that is accepted can be taken over; then the prompt shows nothing, and it
has the new settings, which are valid, and the strategy that they choose. -/
theorem settings_stay_settled (format : SettingsFormat) {d : Desk} (valid : d.settings.IsValid)
    (chosen : d.settings.chosenStrategy = .ok d.session.plan.strategy)
    (requests : List Prompt.Request) :
    let e := Prompt.serveAll format d requests
    e.settings.IsValid ∧ e.settings.chosenStrategy = .ok e.session.plan.strategy ∧
      ∀ text key value, Prompt.setting? text = some (key, value) →
        (∀ reason, e.settings.change format.decoder key value = .error reason →
          Prompt.command format e text = ([Prompt.line reason.message], e)) ∧
        ∀ s, e.settings.change format.decoder key value = .ok s →
          ∃ f : Desk, { e with settings := s }.applySettings = .ok f ∧
            Prompt.command format e text = ([], f) ∧ f.settings = s ∧ s.IsValid ∧
            s.chosenStrategy = .ok f.session.plan.strategy := by
  intro e
  have settled : e.IsSettled := Prompt.settled_serveAll format ⟨valid, chosen⟩ requests
  refine ⟨settled.valid, settled.chosen, fun text key value asked ↦ ⟨?_, ?_⟩⟩
  · intro reason refused
    rw [Prompt.command_of_setting asked, Prompt.change_rejected refused]
  · intro s accepted
    obtain ⟨f, applied, shown, rfl, settled'⟩ := Prompt.change_accepted accepted
    exact ⟨f, applied, by rw [Prompt.command_of_setting asked, shown], rfl, settled'.valid,
      settled'.chosen⟩

end Sizes

/-- After the strategy was changed, a negative number of workers is refused, although the decoder
has put it into the copy of the settings; then the parallel strategy is still in use. -/
theorem settings_stay_settled_refused :
    let format : SettingsFormat := ⟨Settings.ofYaml, Settings.dump⟩
    let e := Prompt.serveAll format {} [.command (lit ":set strategy parallel")]
    e.settings.IsValid ∧ e.session.plan.strategy = .parallel 0 16 ∧
      Prompt.command format e (lit ":set workers -1") =
        ([Prompt.line (lit "workers must not be negative, got -1")], e) := by
  intro format e
  obtain ⟨valid, chosen, changes⟩ :=
    settings_stay_settled format (d := {}) (by decide +kernel : Settings.firstFault {} = none)
      rfl [.command (lit ":set strategy parallel")]
  have settings : e.settings = { strategy := lit "parallel" } := by decide +kernel
  have strategy : e.session.plan.strategy = .parallel 0 16 := by
    rw [settings] at chosen
    exact (Except.ok.inj chosen).symm
  have decoded : e.settings.decode format.decoder (lit "workers") (lit "workers" ++ lit ": " ++
      lit "-1") =
        (some (.negativeWorkers (-1)), { strategy := lit "parallel", workers := -1 }) := by
    rw [settings]
    decide +kernel
  have refused : e.settings.change format.decoder (lit "workers") (lit "-1") =
      .error (.negativeWorkers (-1)) := by
    rw [Settings.change, decoded]
  exact ⟨valid, strategy,
    (changes (lit ":set workers -1") _ _ (by decide +kernel)).1 _ refused⟩

end BitCalculus
