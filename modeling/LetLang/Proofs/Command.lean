import LetLang.Command

/-!
# The command and the session

A text is read, checked, evaluated and shown in three places: by a session, by the subcommand that evaluates a file
and by the subcommand that prints the tree of a file. None of them calls another. Here they are compared on a file of
any content: the subcommands report the messages of a new session, and what `run` prints is what the session would
show, only that an error is printed to the other channel (`Command.agrees_session`). How the file was found, and how the
settings were decoded, does not matter.

The log is printed to the same channel as the messages. All that a run logs is of the lowest level, so a log that starts
above it stays empty.
-/

set_option autoImplicit false

namespace LetLang

/-! ## Playing a script -/

namespace World

variable {Files : Type} [FileSystem Files] {α β : Type} {w : World Files}

@[simp]
theorem play_pure (w : World Files) (a : α) : w.play (pure a) = some (a, w) := rfl

/-- What follows a script is played in the world that the script leaves. -/
@[simp]
theorem play_bind (w : World Files) (x : Script α) (f : α → Script β) :
    w.play (x >>= f) = (w.play x).bind fun p => p.2.play (f p.1) := by
  induction x generalizing w with
  | done a => rfl
  | ask r next ih => exact ih (w.answer r).1 (w.answer r).2
  | unfinished => rfl

@[simp]
theorem play_print_out (w : World Files) (s : String) :
    w.play (Script.print .out s) = some ((), { w with out := w.out ++ s }) := rfl

@[simp]
theorem play_print_err (w : World Files) (s : String) :
    w.play (Script.print .err s) = some ((), { w with err := w.err ++ s }) := rfl

@[simp]
theorem play_readFile (w : World Files) (path : String) :
    w.play (Script.readFile path) = some (FileSystem.read w.files path, w) := rfl

@[simp]
theorem play_hasFile (w : World Files) (path : String) :
    w.play (Script.hasFile path) = some (FileSystem.has w.files path, w) := rfl

/-- A log that shows none of its lines prints nothing. -/
theorem play_log_hidden {level : Level} {lines : List LogLine}
    (h : ∀ l ∈ lines, level.shows l.level = false) : w.play (Script.log level lines) = some ((), w) := by
  induction lines with
  | nil => rfl
  | cons l ls ih =>
    have hl : level.shows l.level = false := h l List.mem_cons_self
    simp only [Script.log, hl, Bool.false_eq_true, if_false]
    exact ih fun k hk => h k (List.mem_cons_of_mem _ hk)

/-- The script ends with the exit code, and all it does to the world is to print the two texts. -/
def Prints (w : World Files) (x : Script Nat) (code : Nat) (out err : String) : Prop :=
  w.play x = some (code, { w with out := w.out ++ out, err := w.err ++ err })

/-- The settings that are in force in the world, when the home directory and the path of a settings file are these. -/
def Finds (w : World Files) (decoder : Settings.Decoder) (home path : String) (settings : Settings) : Prop :=
  ((w.play (Settings.resolve home path decoder)).bind fun p => p.1.toOption) = some settings

instance (w : World Files) (decoder : Settings.Decoder) (home path : String) (settings : Settings) :
    Decidable (w.Finds decoder home path settings) :=
  inferInstanceAs (Decidable (_ = _))

/-- Loading settings changes nothing; what is loaded depends on the file alone. -/
theorem play_load (w : World Files) (decoder : Settings.Decoder) (path : String) :
    w.play (Settings.load path decoder) = some (if path.isEmpty then .error .emptyPath
      else Settings.ofFile path (FileSystem.read w.files path) decoder, w) := by
  unfold Settings.load
  split
  · rfl
  · rfl

/-- Looking for settings changes nothing; what is found are those to start with, or those loaded from some file. -/
theorem play_resolve (w : World Files) (decoder : Settings.Decoder) (home path : String) :
    ∃ x, w.play (Settings.resolve home path decoder) = some (x, w) ∧
      (x = .ok {} ∨ ∃ file, w.play (Settings.load file decoder) = some (x, w)) := by
  have hload (file : String) := play_load w decoder file
  unfold Settings.resolve
  split
  · cases Settings.homeFile? home with
    | none => exact ⟨_, rfl, .inl rfl⟩
    | some candidate =>
      simp only [play_bind, play_hasFile, Option.bind_some]
      split
      · exact ⟨_, hload candidate, .inr ⟨candidate, hload candidate⟩⟩
      · exact ⟨_, rfl, .inl rfl⟩
  · exact ⟨_, hload path, .inr ⟨path, hload path⟩⟩

theorem Finds.play {decoder : Settings.Decoder} {home path : String} {settings : Settings}
    (h : w.Finds decoder home path settings) :
    w.play (Settings.resolve home path decoder) = some (.ok settings, w) := by
  obtain ⟨x, hx, -⟩ := play_resolve w decoder home path
  rw [Finds, hx] at h
  cases x with
  | error e => exact absurd h (by simp [Except.toOption])
  | ok found =>
    obtain rfl := Option.some.inj h
    exact hx

end World

/-- Whatever a run logs is of the lowest level. -/
theorem Machine.level_of_mem_log {m : Machine} {l : LogLine} (h : l ∈ m.log) : l.level = .debug := by
  obtain ⟨e, -, he⟩ := List.mem_filterMap.mp h
  cases e with
  | checked | bound => exact absurd he (by simp [Event.logLine?])
  | called | failed =>
    obtain rfl := Option.some.inj he
    rfl

theorem Level.shows_debug {level : Level} (h : level ≠ .debug) : level.shows .debug = false := by
  cases level with
  | debug => exact absurd rfl h
  | info | warn | error => rfl

/-! ## What is shown -/

/-- A writer of unlimited room takes all that is written. -/
theorem Writer.writeAll_unlimited {w : Writer} (h : w.room = none) (ss : List String) :
    w.writeAll ss = (none, { w with taken := ss.reverse ++ w.taken }) := by
  induction ss generalizing w with
  | nil => rfl
  | cons s ss ih =>
    have hwrite : w.write s = (none, { w with taken := s :: w.taken }) := by simp only [Writer.write, h]
    simp only [Writer.writeAll, hwrite]
    rw [ih (w := { w with taken := s :: w.taken }) h]
    simp

/-- The text that a writer of unlimited room has after the result was written to it. -/
def Result.shown (r : Result) : String := (({} : Writer).writeAll r.writes).2.text

theorem Result.shown_eq (r : Result) : r.shown = "".intercalate r.writes := by
  simp [shown, Writer.writeAll_unlimited, Writer.text]

namespace Session

/-- What a new session gives: messages and nothing else, or else the value of a run from the start. -/
theorem eval_new_cases {depth : Int} {fuel : Nat} {src : Source} {r : Result} {s : Session}
    (h : (Session.new depth).eval .endless fuel src = some (r, s)) :
    ((Program.ofSource src).2 ≠ [] ∧ r = { messages := (Program.ofSource src).2.map Diagnostic.message }) ∨
    ((Program.ofSource src).2 = [] ∧ r.messages = [] ∧
      (Machine.newScope {}).2.eval { maxDepth := depth } fuel (Machine.newScope {}).1
        (.program (Program.ofSource src).1) = some (r.value, s.machine)) := by
  simp only [Session.eval] at h
  split at h
  · next p hsrc =>
    rw [hsrc]
    refine .inr ⟨rfl, ?_⟩
    split at h
    · exact absurd h (by simp)
    · next v machine hv =>
      obtain ⟨rfl, rfl⟩ := Prod.mk.inj (Option.some.inj h)
      exact ⟨rfl, hv⟩
  · next p ds hclean hsrc =>
    rw [hsrc]
    obtain ⟨rfl, -⟩ := Prod.mk.inj (Option.some.inj h)
    exact .inl ⟨hclean, rfl⟩

end Session

namespace Flags

/-- The arguments that name a settings file, if one is named. -/
def naming : Option String → List String
  | none => []
  | some file => ["-config", file]

theorem form_of_operand {arg : String} (h : arg.toList.head? ≠ some '-') : Form.of arg = .operand := by
  unfold Form.of
  split
  all_goals simp_all

theorem parse_naming (config : Option String) {path : String} (h : path.toList.head? ≠ some '-') :
    parse (naming config ++ [path]) = .ok ⟨config.getD "", [path]⟩ := by
  have hpath (value : String) : parseFrom value [path] = .ok ⟨value, [path]⟩ := by
    simp only [parseFrom, form_of_operand h]
  cases config with
  | none => exact hpath ""
  | some file => exact hpath file

end Flags

namespace Command

variable {Files : Type} [FileSystem Files] {w : World Files} {decoder : Settings.Decoder} {home path : String}
  {settings : Settings} {fuel : Nat} {src : Source}

theorem play_source? (subcommand : String) (hread : FileSystem.read w.files path = .ok src) :
    w.play (source? subcommand [path]) = some (some (path, src), w) := by
  simp [source?, hread]

theorem play_settings? (subcommand : String) {args rest : List String} {config : String}
    (hargs : Flags.parse args = .ok ⟨config, rest⟩) (hfinds : w.Finds decoder home config settings) :
    w.play (settings? subcommand home args decoder) = some (some (settings, rest), w) := by
  simp [settings?, hargs, hfinds.play]

/-- With its settings and its file at hand, the subcommand evaluates the content. -/
theorem play_run {args : List String} {config : String} (hargs : Flags.parse args = .ok ⟨config, [path]⟩)
    (hfinds : w.Finds decoder home config settings) (hread : FileSystem.read w.files path = .ok src) :
    w.play (run home fuel args decoder) = w.play (evaluate settings fuel path src) := by
  simp [run, play_settings? "run" hargs hfinds, play_source? "run" hread]

/-- The tree of a file is printed with its messages. -/
theorem tree_prints (hread : FileSystem.read w.files path = .ok src) :
    w.Prints (tree [path]) (if (Program.ofSource src).2.isEmpty then 0 else 1)
      ("".intercalate ((Program.ofSource src).1.map fun s => s.text ++ "\n"))
      (report path (Program.ofSource src).2) := by
  simp [World.Prints, tree, play_source? "ast" hread]

/-- A text with diagnostics is reported and not evaluated. -/
theorem evaluate_prints_report (h : (Program.ofSource src).2 ≠ []) :
    w.Prints (evaluate settings fuel path src) 1 "" (report path (Program.ofSource src).2) := by
  unfold evaluate
  split
  · next hsrc => exact absurd (by rw [hsrc]) h
  · next hsrc =>
    rw [hsrc]
    simp [World.Prints]

/-- A text without diagnostics is evaluated, and its value is printed where it belongs. -/
theorem evaluate_prints_value {v : Value} {m : Machine} (hlevel : settings.level ≠ .debug)
    (hclean : (Program.ofSource src).2 = [])
    (hv : (Machine.newScope {}).2.eval { maxDepth := settings.maxDepth } fuel (Machine.newScope {}).1
      (.program (Program.ofSource src).1) = some (v, m)) :
    (v.isError = true → w.Prints (evaluate settings fuel path src) 1 "" (v.text ++ "\n")) ∧
    (v.isError = false → w.Prints (evaluate settings fuel path src) 0 ({ value := v } : Result).shown "") := by
  have hlog (w : World Files) : w.play (Script.log settings.level m.log) = some ((), w) :=
    World.play_log_hidden fun l hl => by rw [Machine.level_of_mem_log hl, Level.shows_debug hlevel]
  have hsrc : Program.ofSource src = ((Program.ofSource src).1, []) := Prod.ext rfl hclean
  constructor
  · intro herror
    rw [World.Prints, evaluate, hsrc]
    simp [hv, hlog, herror]
  · intro herror
    rw [World.Prints, evaluate, hsrc]
    cases hpresent : v.isPresent with
    | false => simp [hv, hlog, herror, hpresent, Result.shown_eq, Result.writes]
    | true => simp [hv, hlog, herror, hpresent, Result.shown_eq, Result.writes]

/-- **The subcommands agree with a session**, whatever the file system is and whatever the command decodes settings with.
A file has some content, and a new session with the depth limit of the settings in force gives a result for it. If the result has messages, `run` and `ast` both report them line by line,
under the name of the file and in order, and exit with 1; then `run` prints nothing else. If its value is an error,
`run` exits with 1 and prints that error and nothing else. Otherwise `run` exits with 0 and prints what is shown of
the result. And `ast` exits with 0 exactly if there are no messages. -/
theorem agrees_session {Files : Type} [FileSystem Files] (w : World Files) (tools : Toolkit) (home : String)
    (config : Option String) (settings : Settings) (path : String) (src : Source) (fuel rounds : Nat) (r : Result)
    (s : Session) (hpath : path.toList.head? ≠ some '-') (hread : FileSystem.read w.files path = .ok src)
    (hfinds : w.Finds tools.decoder home (config.getD "") settings) (hlevel : settings.level ≠ .debug)
    (hends : (Session.new settings.maxDepth).eval .endless fuel src = some (r, s)) :
    let runs := script home fuel rounds ("run" :: Flags.naming config ++ [path]) tools
    let prints := script home fuel rounds ["ast", path] tools
    let lines := "".intercalate (r.messages.map fun m => path ++ ": " ++ m ++ "\n")
    (r.messages ≠ [] → w.Prints runs 1 "" lines ∧ ∃ out, w.Prints prints 1 out lines) ∧
    (r.value.isError = true → w.Prints runs 1 "" (r.value.text ++ "\n")) ∧
    (r.messages = [] → r.value.isError = false → w.Prints runs 0 r.shown "") ∧
    (∃ code out err, w.Prints prints code out err ∧ (code = 0 ↔ r.messages = [])) := by
  intro runs prints lines
  have hrun {code : Nat} {out err : String} (h : w.Prints (evaluate settings fuel path src) code out err) :
      w.Prints runs code out err :=
    (play_run (Flags.parse_naming config hpath) hfinds hread).trans h
  have htree : w.Prints prints _ _ _ := tree_prints hread
  rcases Session.eval_new_cases hends with ⟨hdirty, rfl⟩ | ⟨hclean, hnone, hv⟩
  · have hlines : lines = report path (Program.ofSource src).2 := by simp [lines, report, Function.comp_def]
    rw [if_neg (by simpa using hdirty), ← hlines] at htree
    have hreport : w.Prints (evaluate settings fuel path src) 1 "" lines := by
      rw [hlines]
      exact evaluate_prints_report hdirty
    refine ⟨fun _ => ⟨hrun hreport, _, htree⟩, nofun, fun hno => ?_, 1, _, _, htree, ?_⟩
    · exact absurd (List.map_eq_nil_iff.mp hno) hdirty
    · simpa using hdirty
  · rw [if_pos (by simpa using hclean)] at htree
    obtain ⟨herror, hvalue⟩ := evaluate_prints_value (w := w) hlevel hclean hv
    have hresult : r = { value := r.value } := by rw [← hnone]
    rw [← hresult] at hvalue
    refine ⟨fun hsome => absurd hnone hsome, fun h => hrun (herror h), fun _ h => hrun (hvalue h), 0, _, _, htree, ?_⟩
    simpa using hnone

/-- A function that calls itself three times. -/
def countdownText : Source :=
  Source.ofString "let f = fn(n) \x7b if (n == 0) \x7b 0 \x7d else \x7b f(n - 1) \x7d \x7d;\nf(3);"

/-- A world with that function and with settings under which it goes too deep. -/
def countdownWorld : World :=
  { files := .ofList [("/home/user/countdown", countdownText),
      ("/etc/settings", Source.ofString "max_depth: 3\nlog_level: info\n")] }

theorem agrees_session_countdown :
    FileSystem.read countdownWorld.files "/home/user/countdown" = .ok countdownText ∧
    countdownWorld.Finds .yaml "" "/etc/settings" { maxDepth := 3, logLevel := "info" } ∧
    countdownWorld.Prints (script "" 100 0 ["run", "-config", "/etc/settings", "/home/user/countdown"]) 1 ""
      "ERROR: maximum call depth exceeded (3)\n" ∧
    ∃ out err, countdownWorld.Prints (script "" 100 0 ["ast", "/home/user/countdown"]) 0 out err := by
  have hread : FileSystem.read countdownWorld.files "/home/user/countdown" = .ok countdownText := by rfl
  have hfinds : countdownWorld.Finds .yaml "" "/etc/settings" { maxDepth := 3, logLevel := "info" } := by
    decide +kernel
  have hends : ((Session.new 3).eval .endless 100 countdownText).map
      (fun x => (x.1.messages, x.1.value.isError, x.1.value.text)) =
        some ([], true, "ERROR: maximum call depth exceeded (3)") := by decide +kernel
  obtain ⟨⟨r, s⟩, heval, heq⟩ := Option.map_eq_some_iff.mp hends
  obtain ⟨hnone, herror, htext⟩ : r.messages = [] ∧ r.value.isError = true ∧
      r.value.text = "ERROR: maximum call depth exceeded (3)" := by simpa using heq
  obtain ⟨-, hrun, -, code, out, err, htree, hcode⟩ := agrees_session countdownWorld {} "" (some "/etc/settings")
    { maxDepth := 3, logLevel := "info" } "/home/user/countdown" countdownText 100 0 r s (by decide) hread hfinds
    (by decide) heval
  refine ⟨hread, hfinds, ?_, out, err, ?_⟩
  · rw [← show r.value.text ++ "\n" = "ERROR: maximum call depth exceeded (3)\n" by rw [htext]; rfl]
    exact hrun herror
  · rw [← hcode.mpr hnone]
    exact htree

end Command

end LetLang
