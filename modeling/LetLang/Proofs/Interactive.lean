import LetLang.Proofs.Command
import LetLang.Proofs.PromptLoop
import LetLang.Proofs.Session
import LetLang.Proofs.Token.Separation

/-!
# The interactive loop and the prompt loop

There are two loops over the lines of a user. The one at a terminal takes the blanks off both ends of a line, passes
over lines of which nothing is left, and starts to count its patience anew with each line. The other one gives every
line to the session as it is. Here they are compared on lines of printable ASCII, tabs included: they show the same, and
leave the same bindings (`Interactive.agrees_promptLoop`).

Three facts carry this. Blanks around a text change none of its tokens (`ofSource_trim`), a text without tokens does
nothing (`eval_of_trim_nil`), and a session that nobody loses patience with depends on its store and on the identities
that it has given, not on its counters (`Session.Alike.eval`).
-/

set_option autoImplicit false

namespace LetLang

/-! ## Blanks around a text -/

namespace Text

/-- A byte of a line that is typed: a tab, or a printable character of ASCII. -/
def IsTyped (b : UInt8) : Prop := b = 9 ∨ 32 ≤ b ∧ b ≤ 126

instance (b : UInt8) : Decidable (IsTyped b) := inferInstanceAs (Decidable (_ ∨ _))

/-- What is dropped from the front of a typed line are blanks of the language. -/
theorem dropCodes_spec {codes : List (List UInt8)}
    (hcodes : ∀ code ∈ codes, ∀ b ∈ code, IsTyped b → Source.isBlank b = true) (times : Nat) {bytes : List UInt8}
    (hbytes : ∀ b ∈ bytes, IsTyped b) :
    ∃ gap, bytes = gap ++ dropCodes codes times bytes ∧ ∀ b ∈ gap, Source.isBlank b = true := by
  induction times generalizing bytes with
  | zero => exact ⟨[], rfl, by simp⟩
  | succ times ih =>
    unfold dropCodes
    split
    · next code hfind =>
      have hmem := List.mem_of_find?_eq_some hfind
      have hstart : code.isPrefixOf bytes = true := by
        simpa using List.find?_some hfind
      obtain ⟨rest, rfl⟩ := List.isPrefixOf_iff_prefix.mp hstart
      obtain ⟨gap, heq, hgap⟩ := ih fun b hb => hbytes b (List.mem_append_right _ hb)
      rw [List.drop_left]
      refine ⟨code ++ gap, by rw [List.append_assoc, ← heq], ?_⟩
      intro b hb
      rcases List.mem_append.mp hb with hb | hb
      · exact hcodes code hmem b hb (hbytes b (List.mem_append_left _ hb))
      · exact hgap b hb
    · exact ⟨[], rfl, by simp⟩

theorem isBlank_of_mem_codes : ∀ code ∈ blanks.map String.utf8EncodeChar, ∀ b ∈ code, IsTyped b →
    Source.isBlank b = true := by
  decide +kernel

/-- A typed line is its trimmed form between two gaps. -/
theorem trim_spec {bytes : List UInt8} (h : ∀ b ∈ bytes, IsTyped b) :
    ∃ before after, bytes = before ++ (trim bytes ++ after) ∧ (∀ b ∈ before, Source.isBlank b = true) ∧
      ∀ b ∈ after, Source.isBlank b = true := by
  obtain ⟨before, hfront, hbefore⟩ := dropCodes_spec isBlank_of_mem_codes bytes.length h
  generalize hrest : dropCodes (blanks.map String.utf8EncodeChar) bytes.length bytes = rest at hfront
  have hback : ∀ b ∈ rest.reverse, IsTyped b := by
    intro b hb
    rw [List.mem_reverse] at hb
    rw [hfront] at h
    exact h b (List.mem_append_right _ hb)
  have hcodes : ∀ code ∈ (blanks.map String.utf8EncodeChar).map List.reverse, ∀ b ∈ code, IsTyped b →
      Source.isBlank b = true := by
    intro code hcode b hb
    obtain ⟨code', hcode', rfl⟩ := List.mem_map.mp hcode
    exact isBlank_of_mem_codes code' hcode' b (List.mem_reverse.mp hb)
  obtain ⟨after, heq, hafter⟩ := dropCodes_spec hcodes rest.reverse.length hback
  refine ⟨before, after.reverse, ?_, hbefore, fun b hb => hafter b (List.mem_reverse.mp hb)⟩
  have htrim : trim bytes ++ after.reverse = rest := by
    unfold trim
    simp only [hrest]
    rw [← List.reverse_append, ← heq, List.reverse_reverse]
  rw [htrim]
  exact hfront

end Text

theorem Program.ofSource_trim {bytes : Source} (h : ∀ b ∈ bytes, Text.IsTyped b) :
    Program.ofSource (Text.trim bytes) = Program.ofSource bytes := by
  obtain ⟨before, after, heq, hbefore, hafter⟩ := Text.trim_spec h
  have h0 : 0 ∉ Text.trim bytes := by
    intro hmem
    rw [heq] at h
    exact absurd (h 0 (List.mem_append_right _ (List.mem_append_left _ hmem))) (by decide)
  unfold Program.ofSource
  nth_rewrite 2 [heq]
  rw [Source.tokens_blank_append hbefore, Source.tokens_append_blanks h0 hafter]

/-! ## What a session depends on -/

/-- The same but for what has been counted and noted. -/
def Machine.Alike (m m' : Machine) : Prop := ∃ asked trace, m' = { m with asked, trace }

namespace Eval

/-- A run that nobody loses patience with reads neither the count of its questions nor its trace. -/
def countersSimulation (maxDepth : Int) : Simulation { maxDepth, patience := .endless } where
  Corresponds R m m' := R = .trivial ∧ m.Alike m'
  answer _ := rfl
  checked := by
    rintro R m m' ⟨rfl, asked, trace, rfl⟩
    exact ⟨rfl, _, _, rfl⟩
  depth := by
    rintro R m m' ⟨rfl, asked, trace, rfl⟩
    rfl
  enter := by
    rintro R m m' n ⟨rfl, asked, trace, rfl⟩
    exact ⟨rfl, _, _, rfl⟩
  leave := by
    rintro R m m' ⟨rfl, asked, trace, rfl⟩
    exact ⟨rfl, _, _, rfl⟩
  failed := by
    rintro R m m' fault ⟨rfl, asked, trace, rfl⟩
    exact ⟨rfl, _, _, rfl⟩
  name := by
    rintro R m m' s s' x ⟨rfl, asked, trace, rfl⟩ rfl
    exact Value.renamed_trivial_iff.mpr rfl
  bind := by
    rintro R m m' s s' v v' x ⟨rfl, asked, trace, rfl⟩ rfl hv
    obtain rfl := Value.renamed_trivial_iff.mp hv
    exact ⟨rfl, _, _, rfl⟩
  takeIdentity := by
    rintro R m m' ⟨rfl, asked, trace, rfl⟩
    exact ⟨.trivial, Renaming.le_refl _, rfl, rfl, _, _, rfl⟩
  enclose := by
    rintro R m m' s s' ⟨rfl, asked, trace, rfl⟩ rfl
    exact ⟨.trivial, Renaming.le_refl _, rfl, rfl, _, _, rfl⟩

end Eval

namespace Session

/-- Sessions with the same limit on calls and the same bindings, in which the next function gets the same identity. -/
structure Alike (s s' : Session) : Prop where
  maxDepth : s'.maxDepth = s.maxDepth
  scope : s'.scope = s.scope
  store : s'.machine.store = s.machine.store
  fresh : s'.machine.fresh = s.machine.fresh

theorem Alike.refl (s : Session) : s.Alike s := ⟨rfl, rfl, rfl, rfl⟩

theorem Alike.trans {s t u : Session} (h : s.Alike t) (h' : t.Alike u) : s.Alike u :=
  ⟨h'.maxDepth.trans h.maxDepth, h'.scope.trans h.scope, h'.store.trans h.store, h'.fresh.trans h.fresh⟩

theorem Alike.get?_eq {s s' : Session} (h : s.Alike s') (x : String) : s'.get? x = s.get? x := by
  unfold get?
  rw [h.store, h.scope]

theorem Alike.renewPatience {s s' : Session} (h : s.Alike s') : s.renewPatience.Alike s' :=
  ⟨h.maxDepth, h.scope, h.store, h.fresh⟩

/-- A text with diagnostics gives their messages, and leaves the session as it was. -/
theorem eval_of_diagnostics (s : Session) (patience : Patience) (fuel : Nat) {src : Source}
    (h : (Program.ofSource src).2 ≠ []) :
    s.eval patience fuel src = some ({ messages := (Program.ofSource src).2.map Diagnostic.message },
      { s with machine := { s.machine with trace := [] } }) := by
  unfold Session.eval
  split
  · next hsrc => exact absurd (by rw [hsrc]) h
  · next hsrc => rw [hsrc]

theorem eval_eq_run (s : Session) (fuel : Nat) {src : Source} (h : (Program.ofSource src).2 = []) :
    s.eval .endless fuel src =
      ((Eval.Task.program s.scope (Program.ofSource src).1 .absent).run s.limits fuel s.ready).map
        fun x => ({ value := x.1 }, { s with machine := x.2 }) := by
  rw [eval_eq_map h, Machine.eval_eq_run]
  rfl

/-- **A text gives the same in sessions that are alike**, and leaves them alike. -/
theorem Alike.eval {s s' : Session} (h : s.Alike s') (fuel : Nat) (src : Source) :
    (s.eval .endless fuel src = none ∧ s'.eval .endless fuel src = none) ∨
    ∃ r t t', s.eval .endless fuel src = some (r, t) ∧ s'.eval .endless fuel src = some (r, t') ∧ t.Alike t' := by
  obtain ⟨hmax, hscope, hstore, hfresh⟩ := h
  by_cases hclean : (Program.ofSource src).2 = []
  · have hlimits : s'.limits = s.limits := by simp only [limits, hmax]
    have hready : (Eval.countersSimulation s.maxDepth).Corresponds .trivial s.ready s'.ready := by
      refine ⟨rfl, s'.machine.asked, [], ?_⟩
      simp only [ready, hstore, hfresh]
    have hagree : Eval.Agree (Eval.countersSimulation s.maxDepth) .trivial (Eval.Task.run s.limits fuel _ s.ready)
        (Eval.Task.run s.limits fuel _ s'.ready) :=
      Eval.Simulation.run fuel (Eval.Task.renamed_trivial (.program s.scope (Program.ofSource src).1 .absent)) hready
    rw [eval_eq_run s fuel hclean, eval_eq_run s' fuel hclean, hlimits, hscope]
    generalize Eval.Task.run s.limits fuel _ s.ready = o, Eval.Task.run s.limits fuel _ s'.ready = o' at hagree ⊢
    cases hagree with
    | none => exact .inl ⟨rfl, rfl⟩
    | some _ hv hn =>
      obtain ⟨rfl, asked, trace, rfl⟩ := hn
      obtain rfl := Value.renamed_trivial_iff.mp hv
      exact .inr ⟨_, _, _, rfl, rfl, hmax, rfl, rfl, rfl⟩
  · exact .inr ⟨_, _, _, eval_of_diagnostics s _ fuel hclean, eval_of_diagnostics s' _ fuel hclean,
      hmax, hscope, hstore, hfresh⟩

/-- Blanks around a text do not count. -/
theorem eval_trim (s : Session) (patience : Patience) (fuel : Nat) {bytes : Source} (h : ∀ b ∈ bytes, Text.IsTyped b) :
    s.eval patience fuel (Text.trim bytes) = s.eval patience fuel bytes := by
  unfold Session.eval
  rw [Program.ofSource_trim h]

/-- A line of blanks gives nothing, and it leaves the session as it was. -/
theorem eval_of_trim_nil (s : Session) (patience : Patience) {fuel : Nat} (hfuel : 0 < fuel) {bytes : Source}
    (h : ∀ b ∈ bytes, Text.IsTyped b) (hblank : Text.trim bytes = []) :
    ∃ s', s.eval patience fuel bytes = some ({}, s') ∧ s.Alike s' := by
  obtain ⟨fuel, rfl⟩ := Nat.exists_eq_succ_of_ne_zero (Nat.ne_of_gt hfuel)
  have hsrc : Program.ofSource bytes = ([], []) := by
    rw [← Program.ofSource_trim h, hblank, Program.ofSource, Source.tokens_of_next?_none rfl, Program.parse_nil]
  refine ⟨{ s with machine := { s.machine with depth := 0, trace := [] } }, ?_, rfl, rfl, rfl, rfl⟩
  simp only [Session.eval, hsrc]
  rfl

end Session

/-! ## Scripts at a terminal -/

namespace Script

variable {α β γ : Type}

theorem id_map (x : Script α) : id <$> x = x := by
  induction x with
  | done a => rfl
  | ask r next ih => exact congrArg (Script.ask r) (funext ih)
  | unfinished => rfl

theorem bind_assoc (x : Script α) (f : α → Script β) (g : β → Script γ) :
    x >>= f >>= g = x >>= fun a => f a >>= g := by
  induction x with
  | done a => rfl
  | ask r next ih => exact congrArg (Script.ask r) (funext ih)
  | unfinished => rfl

instance : LawfulMonad Script := .mk' Script id_map (fun _ _ => rfl) bind_assoc

@[simp]
theorem unfinished_bind (f : α → Script β) : (unfinished >>= f : Script β) = unfinished := rfl

end Script

namespace World

variable {Files : Type} [FileSystem Files] {w : World Files}

/-- The world in which the next line has been read after a prompt. -/
def afterLine (w : World Files) (prompt : String) (ls : List Text.Line) : World Files :=
  { w with terminal := w.terminal.offer prompt, input := ls }

@[simp]
theorem play_display (w : World Files) (s : String) :
    w.play (Script.display s) = some ((w.terminal.write s).1, { w with terminal := w.terminal.offer s }) := rfl

@[simp]
theorem play_unfinished {α : Type} (w : World Files) : w.play (.unfinished : Script α) = none := rfl

theorem play_displayAll (w : World Files) (ss : List String) :
    w.play (Script.displayAll ss) =
      some ((w.terminal.writeAll ss).1, { w with terminal := (w.terminal.writeAll ss).2 }) := by
  induction ss generalizing w with
  | nil => rfl
  | cons s ss ih =>
    simp only [Script.displayAll, play, answer, Writer.writeAll]
    generalize w.terminal.write s = x
    obtain ⟨refused, terminal⟩ := x
    cases refused with
    | none => exact ih _
    | some e => rfl

/-- A terminal that never fails takes all texts. -/
theorem play_displayAll_unlimited (h : w.terminal.room = none) (ss : List String) :
    w.play (Script.displayAll ss) = some (none, { w with terminal := w.terminal.after ss }) := by
  have hleft : w.terminal.left ss = [] := by simp [Writer.left, h]
  simp [play_displayAll, Writer.writeAll_eq, hleft]

/-- The log goes elsewhere. -/
theorem play_log (w : World Files) (level : Level) (lines : List LogLine) :
    ∃ err, w.play (Script.log level lines) = some ((), { w with err }) := by
  induction lines generalizing w with
  | nil => exact ⟨w.err, rfl⟩
  | cons l ls ih =>
    unfold Script.log
    split
    · exact ih _
    · exact ih w

/-- The lines are given one by one, without their ends. -/
theorem play_prompt_line {s : String} {l : Text.Line} {ls : List Text.Line} (hprompt : w.refusal s = none)
    (hinput : w.input = l :: ls) : w.play (Script.prompt s) = some (.line l.content, w.afterLine s ls) := by
  simp only [Script.prompt, play, answer, hprompt, hinput, afterLine]

theorem play_prompt_ended {s : String} (hprompt : w.refusal s = none) (hinput : w.input = []) :
    w.play (Script.prompt s) = some (.ended, { w with terminal := w.terminal.offer s }) := by
  simp only [Script.prompt, play, answer, hprompt, hinput]

@[simp]
theorem play_map {α β : Type} (w : World Files) (f : α → β) (x : Script α) :
    w.play (f <$> x) = (w.play x).map fun p => (f p.1, p.2) := by
  rw [← bind_pure_comp, play_bind]
  cases w.play x <;> rfl

end World

namespace Interactive

open PromptLoop (Round)

/-- What the loop has done at its end. -/
structure Course where
  /-- The lines that were evaluated. -/
  rounds : List Round
  session : Session
  code : Nat
  history : History

/-- The loop, with the lines that it evaluates and the session that it ends with. -/
def course (settings : Settings) (keeper : History.Keeper) (fuel : Nat) : Nat → Session → History → Script Course
  | 0, _, _ => .unfinished
  | rounds + 1, session, history => do
    match ← Script.prompt settings.prompt with
    | .aborted => course settings keeper fuel rounds session history
    | .ended =>
      let _ ← Script.display "\n"
      return ⟨[], session, 0, history⟩
    | .failed error =>
      Script.log settings.level [⟨.error, "read input", [("error", error)]⟩]
      let _ ← Script.display "\n"
      return ⟨[], session, 0, history⟩
    | .line line =>
      let code := Text.trim line
      if code.isEmpty then course settings keeper fuel rounds session history
      else if code = Session.exitLine then return ⟨[], session, 0, history⟩
      else
        let history := keeper.add history line
        match session.renewPatience.eval .endless fuel code with
        | none => .unfinished
        | some (result, session) =>
          Script.log settings.level session.machine.log
          match ← Script.displayAll result.writes with
          | none =>
            let later ← course settings keeper fuel rounds session history
            return { later with rounds := ⟨code, result, session⟩ :: later.rounds }
          | some refusal =>
            Script.log settings.level [⟨.error, "write result", [("error", refusal)]⟩]
            return ⟨[⟨code, result, session⟩], session, 1, history⟩

/-- A session at the terminal, with what its loop has done. -/
def sitting (settings : Settings) (home : String) (fuel rounds : Nat) (keeper : History.Keeper) : Script Course := do
  let _ ← Script.display banner
  let path := settings.historyPath home
  if path.isEmpty then course settings keeper fuel rounds (Session.new settings.maxDepth) []
  else
    let history ← loadHistory keeper path
    let c ← course settings keeper fuel rounds (Session.new settings.maxDepth) history
    saveHistory settings.level keeper path c.history
    return c

/-- Noting what the loop does changes nothing. -/
theorem loop_eq_course (settings : Settings) (keeper : History.Keeper) (fuel rounds : Nat) (session : Session)
    (history : History) :
    loop settings keeper fuel rounds session history = (do
      let c ← course settings keeper fuel rounds session history
      return (c.code, c.history)) := by
  induction rounds generalizing session history with
  | zero => rfl
  | succ rounds ih =>
    simp only [loop, course, bind_assoc]
    refine congrArg _ (funext fun prompted => ?_)
    cases prompted with
    | aborted => exact ih session history
    | ended => simp
    | failed error => simp
    | line line =>
      simp only
      split
      · exact ih session history
      · split
        · rfl
        · cases session.renewPatience.eval .endless fuel (Text.trim line) with
          | none => rfl
          | some x =>
            obtain ⟨result, session'⟩ := x
            simp only [bind_assoc]
            refine congrArg _ (funext fun _ => congrArg _ (funext fun refused => ?_))
            cases refused with
            | none => simp [ih]
            | some refusal => simp

theorem run_eq_sitting (settings : Settings) (home : String) (fuel rounds : Nat) (keeper : History.Keeper) :
    run settings home fuel rounds keeper = (do
      let c ← sitting settings home fuel rounds keeper
      return c.code) := by
  simp only [run, sitting, loop_eq_course, bind_assoc]
  refine congrArg _ (funext fun _ => ?_)
  split
  · simp
  · simp

/-! ## One round -/

section
variable {Files : Type} [FileSystem Files] {settings : Settings} {keeper : History.Keeper} {fuel : Nat} (rounds : Nat)
  {session session' : Session} (history : History) {w : World Files} {l : Text.Line} {ls : List Text.Line}
  {result : Result} (hprompt : w.refusal settings.prompt = none)
include hprompt

theorem play_course_nil (hinput : w.input = []) :
    w.play (course settings keeper fuel (rounds + 1) session history) =
      some (⟨[], session, 0, history⟩, { w with terminal := w.terminal.after [settings.prompt, "\n"] }) := by
  simp [course, World.play_prompt_ended hprompt hinput]

theorem play_course_blank (hinput : w.input = l :: ls) (hblank : Text.trim l.content = []) :
    w.play (course settings keeper fuel (rounds + 1) session history) =
      (w.afterLine settings.prompt ls).play (course settings keeper fuel rounds session history) := by
  simp [course, World.play_prompt_line hprompt hinput, hblank]

theorem play_course_exit (hinput : w.input = l :: ls) (hexit : Text.trim l.content = Session.exitLine) :
    w.play (course settings keeper fuel (rounds + 1) session history) =
      some (⟨[], session, 0, history⟩, w.afterLine settings.prompt ls) := by
  have hne : Session.exitLine ≠ [] := by decide
  simp [course, World.play_prompt_line hprompt hinput, hexit, hne]

section
variable (hinput : w.input = l :: ls) (hline : Text.trim l.content ≠ [])
  (hexit : Text.trim l.content ≠ Session.exitLine)
include hinput hline hexit

theorem play_course_unfinished
    (heval : session.renewPatience.eval .endless fuel (Text.trim l.content) = none) :
    w.play (course settings keeper fuel (rounds + 1) session history) = none := by
  simp [course, World.play_prompt_line hprompt hinput, hline, hexit, heval]

theorem play_course_shown (hroom : w.terminal.room = none)
    (heval : session.renewPatience.eval .endless fuel (Text.trim l.content) = some (result, session')) :
    ∃ err, w.play (course settings keeper fuel (rounds + 1) session history) =
      (World.play { w.afterLine settings.prompt ls with
          terminal := (w.terminal.offer settings.prompt).after result.writes, err }
        (course settings keeper fuel rounds session' (keeper.add history l.content))).map fun x =>
          ({ x.1 with rounds := ⟨Text.trim l.content, result, session'⟩ :: x.1.rounds }, x.2) := by
  obtain ⟨err, hlog⟩ := World.play_log (w.afterLine settings.prompt ls) settings.level session'.machine.log
  have hdisplay (u : World Files) (h : u.terminal.room = none) := World.play_displayAll_unlimited h result.writes
  have hoffer : (w.terminal.offer settings.prompt).room = none := by simp [Writer.room_offer, hroom]
  refine ⟨err, ?_⟩
  simp only [World.afterLine] at hlog
  simp [course, World.play_prompt_line hprompt hinput, hline, hexit, heval, hlog, hdisplay, hoffer, World.afterLine]

end

end

/-! ## Both loops -/

/-- A line as it is typed: printable and not too long. If it says `exit`, then without blanks around it. -/
structure Typed (l : Text.Line) : Prop where
  typed : ∀ b ∈ l.bytes, Text.IsTyped b
  short : l.bytes.length < PromptLoop.lineLimit
  exit : Text.trim l.bytes = Session.exitLine → l.bytes = Session.exitLine

section
variable {l : Text.Line} (h : Typed l)
include h

theorem Typed.dropReturn_eq : Text.dropReturn l.bytes = l.bytes := by
  have hne : ¬ (l.bytes.getLast? == some 13) = true := by
    intro heq
    have hmem : 13 ∈ l.bytes := List.mem_of_getLast? (beq_iff_eq.mp heq)
    exact absurd (h.typed 13 hmem) (by decide)
  rw [Text.dropReturn, if_neg hne]

theorem Typed.content_eq : l.content = l.bytes := by
  unfold Text.Line.content
  split
  · exact h.dropReturn_eq
  · rfl

theorem Typed.trim_eq_exitLine_iff :
    Text.trim l.content = Session.exitLine ↔ Text.dropReturn l.bytes = Session.exitLine := by
  rw [h.content_eq, h.dropReturn_eq]
  refine ⟨h.exit, fun heq => ?_⟩
  rw [heq]
  decide +kernel

end

/-- The texts of the results that were shown. -/
def shown (rs : List Round) : List String := rs.flatMap fun r => r.result.writes

/-- What the interactive loop comes to, when the prompt loop comes to that. -/
structure Matches {Files : Type} (settings : Settings) (session : Session) (all : List Round) (w : World Files)
    (c : Course) (w' : World Files) : Prop where
  shown : shown c.rounds = shown all
  session : c.session.Alike (PromptLoop.lastSession session all)
  /-- Everything on the terminal; the loop ends with a line break if it ends with the input. -/
  terminal : ∃ close, (close = [] ∨ close = ["\n"]) ∧
    w'.terminal = w.terminal.after ((PromptLoop.transcript settings.prompt all).map PromptLoop.Put.text ++ close)

/-- A round that shows what the prompt loop shows in it. -/
theorem Matches.cons {Files : Type} {settings : Settings} {session : Session} {r : Round} {rs all : List Round}
    {w w₁ w' : World Files} {c c' : Course} (h : Matches settings r.session all w₁ c w')
    (hterminal : w₁.terminal = (w.terminal.offer settings.prompt).after r.result.writes)
    (hrounds : c'.rounds = rs ++ c.rounds) (hsession : c'.session = c.session)
    (hrs : Interactive.shown rs = r.result.writes) : Matches settings session (r :: all) w c' w' := by
  obtain ⟨hshown, hlast, close, hclose, hw'⟩ := h
  refine ⟨?_, hsession ▸ hlast, close, hclose, ?_⟩
  · unfold Interactive.shown at hshown hrs ⊢
    rw [hrounds, List.flatMap_append, List.flatMap_cons, hrs, hshown]
  · rw [hw', hterminal, PromptLoop.transcript_cons, Writer.after_append, Writer.after_append, PromptLoop.after_round]

/-- The interactive loop goes the way of the prompt loop, line by line. -/
theorem play_course {Files : Type} [FileSystem Files] {settings : Settings} (keeper : History.Keeper) {fuel : Nat}
    (hfuel : 0 < fuel) (ls : List Text.Line) (htyped : ∀ l ∈ ls, Typed l) (rounds : Nat) (hrounds : ls.length < rounds)
    (s s' : Session) (hs : s.Alike s') (history : History) (w : World Files)
    (hprompt : w.refusal settings.prompt = none) (hinput : w.input = ls) (hroom : w.terminal.room = none) :
    let all := PromptLoop.rounds .endless fuel ls s'
    (all.2 = none ∧ w.play (course settings keeper fuel rounds s history) = none) ∨
    (all.2.isSome = true ∧ ∃ c w', w.play (course settings keeper fuel rounds s history) = some (c, w') ∧
      Matches settings s' all.1 w c w') := by
  induction ls generalizing rounds s s' history w with
  | nil =>
    obtain ⟨rounds, rfl⟩ := Nat.exists_eq_succ_of_ne_zero (Nat.ne_of_gt hrounds)
    exact .inr ⟨rfl, _, _, play_course_nil rounds history hprompt hinput, rfl, hs, ["\n"], .inr rfl, rfl⟩
  | cons l ls ih =>
    obtain ⟨rounds, rfl⟩ := Nat.exists_eq_succ_of_ne_zero (Nat.ne_of_gt (Nat.lt_of_le_of_lt (Nat.zero_le _) hrounds))
    have hl := htyped l List.mem_cons_self
    have hshort : ¬ PromptLoop.lineLimit ≤ l.bytes.length := Nat.not_le.mpr hl.short
    have hlength : ls.length < rounds := by simpa using hrounds
    have hoffer : (w.terminal.offer settings.prompt).room = none := by simp [Writer.room_offer, hroom]
    have hrest := ih (fun l hl => htyped l (List.mem_cons_of_mem _ hl)) rounds hlength
    by_cases hexit : Text.trim l.content = Session.exitLine
    · have hall : PromptLoop.rounds .endless fuel (l :: ls) s' = ([], some none) := by
        simp only [PromptLoop.rounds, if_neg hshort, if_pos (hl.trim_eq_exitLine_iff.mp hexit)]
      rw [hall]
      exact .inr ⟨rfl, _, _, play_course_exit rounds history hprompt hinput hexit, rfl, hs, [], .inl rfl, rfl⟩
    have hline : Text.dropReturn l.bytes ≠ Session.exitLine := fun heq => hexit (hl.trim_eq_exitLine_iff.mpr heq)
    by_cases hblank : Text.trim l.content = []
    · -- nothing happens in the interactive loop, and next to nothing in the other one
      obtain ⟨t', ht', halike⟩ := s'.eval_of_trim_nil .endless hfuel hl.typed (hl.content_eq ▸ hblank)
      rw [← hl.dropReturn_eq] at ht'
      rw [PromptLoop.rounds_cons hshort hline ht', play_course_blank rounds history hprompt hinput hblank]
      rcases hrest s t' (hs.trans halike) history (w.afterLine settings.prompt ls) hprompt rfl hoffer with
        hnone | ⟨hsome, c, w', hplay, hmatch⟩
      · exact .inl hnone
      · exact .inr ⟨hsome, c, w', hplay, hmatch.cons rfl (List.nil_append _).symm rfl rfl⟩
    have hcode : s.renewPatience.eval .endless fuel (Text.trim l.content) =
        s.renewPatience.eval .endless fuel (Text.dropReturn l.bytes) := by
      rw [hl.content_eq, hl.dropReturn_eq]
      exact s.renewPatience.eval_trim .endless fuel hl.typed
    rcases hs.renewPatience.eval fuel (Text.dropReturn l.bytes) with ⟨hnone, hnone'⟩ | ⟨r, t, t', ht, ht', halike⟩
    · refine .inl ⟨?_, play_course_unfinished rounds history hprompt hinput hblank hexit (hcode.trans hnone)⟩
      simp only [PromptLoop.rounds, if_neg hshort, if_neg hline, hnone']
    · obtain ⟨err, hplay⟩ := play_course_shown rounds history hprompt hinput hblank hexit hroom (hcode.trans ht)
      rw [PromptLoop.rounds_cons hshort hline ht', hplay]
      have hafter : ((w.terminal.offer settings.prompt).after r.writes).room = none := by
        rw [Writer.after_unlimited hoffer]
        exact hoffer
      rcases hrest t t' halike (keeper.add history l.content) { w.afterLine settings.prompt ls with
          terminal := (w.terminal.offer settings.prompt).after r.writes, err } hprompt rfl hafter with
        ⟨hnone, hplay'⟩ | ⟨hsome, c, w', hplay', hmatch⟩
      · refine .inl ⟨hnone, ?_⟩
        rw [hplay']
        rfl
      · have hshown : shown [⟨Text.trim l.content, r, t⟩] = r.writes := List.append_nil _
        refine .inr ⟨hsome, { c with rounds := ⟨Text.trim l.content, r, t⟩ :: c.rounds }, w', ?_,
          .cons (c := c) hmatch rfl rfl rfl hshown⟩
        rw [hplay']
        rfl

/-! ## From the banner to the history file -/

section
variable {Files : Type} [FileSystem Files]

theorem play_loadHistory (w : World Files) (keeper : History.Keeper) (path : String) :
    ∃ history, w.play (loadHistory keeper path) = some (history, w) := by
  simp only [loadHistory, World.play_bind, World.play_readFile, Option.bind_some]
  cases FileSystem.read w.files path with
  | ok content => exact ⟨_, rfl⟩
  | error fault => exact ⟨_, rfl⟩

/-- The history file is not on the terminal. -/
theorem play_saveHistory (w : World Files) (level : Level) (keeper : History.Keeper) (path : String)
    (history : History) :
    ∃ w', w.play (saveHistory level keeper path history) = some ((), w') ∧ w'.terminal = w.terminal := by
  unfold saveHistory Script.writeFile
  simp only [World.play_bind, World.play, World.answer]
  cases FileSystem.write w.files path (keeper.toFile history) with
  | ok files => exact ⟨_, rfl, rfl⟩
  | error fault =>
    obtain ⟨err, hlog⟩ := World.play_log w level
      [⟨.warn, "cannot save history", [("path", path), ("error", fault.message)]⟩]
    exact ⟨_, hlog, rfl⟩

/-- All of it: the loop is played after the banner, and what comes after it does not show. -/
theorem play_sitting (settings : Settings) (home : String) (fuel rounds : Nat) (keeper : History.Keeper)
    (w : World Files) :
    ∃ history, let w₁ := { w with terminal := w.terminal.offer banner }
      let looped := w₁.play (course settings keeper fuel rounds (Session.new settings.maxDepth) history)
      (looped = none → w.play (sitting settings home fuel rounds keeper) = none) ∧
      ∀ c w₂, looped = some (c, w₂) → ∃ w', w.play (sitting settings home fuel rounds keeper) = some (c, w') ∧
        w'.terminal = w₂.terminal := by
  simp only [sitting, World.play_bind, World.play_display, Option.bind_some]
  split
  · exact ⟨[], fun hnone => hnone, fun c w₂ hsome => ⟨w₂, hsome, rfl⟩⟩
  · obtain ⟨history, hload⟩ :=
      play_loadHistory { w with terminal := w.terminal.offer banner } keeper (settings.historyPath home)
    refine ⟨history, fun hnone => ?_, fun c w₂ hsome => ?_⟩
    · simp [hload, hnone]
    · obtain ⟨w', hsave, hterminal⟩ := play_saveHistory w₂ settings.level keeper (settings.historyPath home) c.history
      exact ⟨w', by simp [hload, hsome, hsave], hterminal⟩

end

/-- **The two loops agree.** The lines are typed at a terminal that never fails and does not refuse the prompt; whoever
keeps the history, and wherever, does not matter. A session at the terminal ends if the prompt loop over the same lines does, with a new session of the same depth limit and
any prompt of its own. The results that it has shown by then are those that the prompt loop has shown, text by text, and
its session has the same bindings. With the same prompt there is nothing else on the terminal either, save the banner
and the line break after the last prompt. -/
theorem agrees_promptLoop {Files : Type} [FileSystem Files] (settings : Settings) (home prompt : String)
    (fuel rounds : Nat) (keeper : History.Keeper) (w : World Files) (hfuel : 0 < fuel)
    (hrounds : w.input.length < rounds) (hprompt : w.refusal settings.prompt = none)
    (hterminal : w.terminal.room = none) (htyped : ∀ l ∈ w.input, Typed l) :
    let noted := sitting settings home fuel rounds keeper
    let start := Session.new settings.maxDepth
    run settings home fuel rounds keeper = (do
      let c ← noted
      return c.code) ∧
    (w.play noted = none ↔ PromptLoop.run .endless fuel prompt w.input start {} = none) ∧
    ∀ c w' e, w.play noted = some (c, w') → PromptLoop.run .endless fuel prompt w.input start {} = some e →
      shown c.rounds = shown (PromptLoop.course .endless fuel prompt w.input start {}).1 ∧
      (∀ x, c.session.get? x = e.session.get? x) ∧ c.session.machine.store = e.session.machine.store ∧
      (prompt = settings.prompt → ∃ close, (close = [] ∨ close = ["\n"]) ∧
        w'.terminal.taken = close ++ e.writer.taken ++ banner :: w.terminal.taken) := by
  intro noted start
  obtain ⟨history, hnone, hsome⟩ := play_sitting settings home fuel rounds keeper w
  have hbanner : (w.terminal.offer banner).room = none := by simp [Writer.room_offer, hterminal]
  have hloop := play_course keeper hfuel w.input htyped rounds hrounds start start (.refl _) history
    { w with terminal := w.terminal.offer banner } hprompt rfl hbanner
  rw [← PromptLoop.course_end, PromptLoop.course_unlimited]
  refine ⟨run_eq_sitting settings home fuel rounds keeper, ?_, ?_⟩
  · rcases hloop with ⟨hall, hplay⟩ | ⟨hall, c, w₂, hplay, -⟩
    · simp [noted, hnone hplay, hall]
    · obtain ⟨w', hw', -⟩ := hsome c w₂ hplay
      obtain ⟨error, herror⟩ := Option.isSome_iff_exists.mp hall
      simp [noted, hw', herror]
  · intro c w' e hc he
    rcases hloop with ⟨-, hplay⟩ | ⟨-, c', w₂, hplay, hshown, hsession, close, hclose, hw₂⟩
    · exact absurd (hc.symm.trans (hnone hplay)) (by simp)
    · obtain ⟨w'', hw'', hsame⟩ := hsome c' w₂ hplay
      obtain ⟨rfl, rfl⟩ := Prod.mk.inj (Option.some.inj (hc.symm.trans hw''))
      obtain ⟨error, -, rfl⟩ := Option.map_eq_some_iff.mp he
      refine ⟨hshown, fun x => (hsession.get?_eq x).symm, hsession.store.symm, ?_⟩
      intro hsettings
      refine ⟨close, hclose, ?_⟩
      have hreverse : close.reverse = close := by rcases hclose with rfl | rfl <;> rfl
      have hoffer : (w.terminal.offer banner).taken = banner :: w.terminal.taken := by
        simp only [Writer.offer, Writer.write, hterminal]
      rw [hsame, hw₂, Writer.after_unlimited hbanner, hsettings, List.reverse_append, hreverse, hoffer]

/-- Lines with blanks around them and a line of blanks only. -/
def blankedLines : World :=
  { files := {}, input := Text.lines (Source.ofString "  let x = 2;\n \t\nlet y = x *\nx * 21\t\nexit\n") }

/-- What both loops show of these lines. -/
theorem agrees_promptLoop_blankedLines :
    (∀ l ∈ blankedLines.input, Typed l) ∧ ∃ c w', blankedLines.play (sitting {} "" 20 10 {}) = some (c, w') ∧
      shown c.rounds = ["Syntax errors!\n", "\tno prefix parse function for EOF found\n", "42\n"] ∧
      (c.session.get? "x").map Value.text = some "2" := by
  have hdecided : ∀ l ∈ blankedLines.input, (∀ b ∈ l.bytes, Text.IsTyped b) ∧ l.bytes.length < PromptLoop.lineLimit ∧
      (Text.trim l.bytes = Session.exitLine → l.bytes = Session.exitLine) := by decide +kernel
  have htyped : ∀ l ∈ blankedLines.input, Typed l := by
    intro l hl
    obtain ⟨hbytes, hshort, hexit⟩ := hdecided l hl
    exact ⟨hbytes, hshort, hexit⟩
  have hrun : (PromptLoop.run .endless 20 "" blankedLines.input (Session.new defaultMaxDepth) {}).map
      (fun e => (e.session.get? "x").map Value.text) = some (some "2") := by decide +kernel
  have hshown : shown (PromptLoop.course .endless 20 "" blankedLines.input (Session.new defaultMaxDepth) {}).1 =
      ["Syntax errors!\n", "\tno prefix parse function for EOF found\n", "42\n"] := by decide +kernel
  obtain ⟨e, he, hx⟩ := Option.map_eq_some_iff.mp hrun
  obtain ⟨-, hends, hagree⟩ := agrees_promptLoop {} "" "" 20 10 {} blankedLines (by decide) (by decide +kernel)
    (by decide +kernel) rfl htyped
  cases hplay : blankedLines.play (sitting {} "" 20 10 {}) with
  | none => exact absurd (he.symm.trans (hends.mp hplay)) (by simp)
  | some x =>
    obtain ⟨c, w'⟩ := x
    obtain ⟨hsame, hget, -⟩ := hagree c w' e hplay he
    exact ⟨htyped, c, w', rfl, hsame.trans hshown, by rw [hget, hx]⟩

end Interactive

end LetLang
