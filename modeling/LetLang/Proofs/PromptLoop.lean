import LetLang.PromptLoop

/-!
# What the prompt loop writes

The loop treats its two sorts of writes differently: it goes on when a prompt is refused, and it ends when something of
a result is. So a writer that breaks need not end the loop at once. Lines that show nothing are still evaluated,
silently, until one comes that has something to show.

All the same the writer decides nothing but the end. What the lines are and what they give does not depend on it
(`rounds`), and so there is one list of writes for all writers (`transcript`). A writer takes of this list as much as it
has room for, and the loop ends early exactly if a text of a result is in the part that is left (`run_limited`).
-/

set_option autoImplicit false

namespace LetLang

/-! ## Writers with little room -/

namespace Writer

variable {α : Type}

/-- The writer after the texts were offered to it, whatever it said. -/
def after (w : Writer) (ss : List String) : Writer := ss.foldl offer w

/-- Those of the writes that the writer has no room for. -/
def left (w : Writer) (xs : List α) : List α :=
  match w.room with
  | none => []
  | some n => xs.drop n

@[simp]
theorem after_nil (w : Writer) : w.after [] = w := rfl

@[simp]
theorem after_cons (w : Writer) (s : String) (ss : List String) : w.after (s :: ss) = (w.offer s).after ss := rfl

theorem after_append (w : Writer) (ss us : List String) : w.after (ss ++ us) = (w.after ss).after us := by
  unfold after
  exact List.foldl_append

@[simp]
theorem left_nil (w : Writer) : w.left ([] : List α) = [] := by
  unfold left
  split
  · rfl
  · exact List.drop_nil

theorem room_offer (w : Writer) (s : String) : (w.offer s).room = w.room.map (· - 1) := by
  unfold offer write
  split
  · next h => simp [h]
  · next h => simp [h]
  · next h => simp [h]

@[simp]
theorem refusal_offer (w : Writer) (s : String) : (w.offer s).refusal = w.refusal := by
  unfold offer write
  split <;> rfl

/-- A writer that has no room left stays as it is. -/
theorem offer_of_full {w : Writer} (h : w.room = some 0) (s : String) : w.offer s = w := by
  simp only [offer, write, h]

theorem after_of_full {w : Writer} (h : w.room = some 0) (ss : List String) : w.after ss = w := by
  induction ss with
  | nil => rfl
  | cons s ss ih => rw [after_cons, offer_of_full h, ih]

theorem left_cons (w : Writer) (s : String) (x : α) (xs : List α) (h : w.room ≠ some 0) :
    w.left (x :: xs) = (w.offer s).left xs := by
  unfold left
  rw [room_offer]
  cases hroom : w.room with
  | none => rfl
  | some n =>
    cases n with
    | zero => exact absurd hroom h
    | succ n => rfl

theorem left_of_full {w : Writer} (h : w.room = some 0) (xs : List α) : w.left xs = xs := by
  simp [left, h]

/-- What follows is left to a writer that has been offered what comes before. -/
theorem left_append (text : α → String) (w : Writer) (xs ys : List α) :
    w.left (xs ++ ys) = w.left xs ++ (w.after (xs.map text)).left ys := by
  induction xs generalizing w with
  | nil => simp
  | cons x xs ih =>
    by_cases h : w.room = some 0
    · rw [after_of_full h]
      simp only [left_of_full h]
    · rw [List.cons_append, List.map_cons, after_cons, left_cons w (text x) _ _ h, left_cons w (text x) _ _ h, ih]

/-- A writer refuses if it has no room for all of the texts. Those that come after the refused one would not have been
taken either. -/
theorem writeAll_eq (w : Writer) (ss : List String) :
    w.writeAll ss = (if (w.left ss).isEmpty then none else some w.refusal, w.after ss) := by
  induction ss generalizing w with
  | nil => simp [writeAll]
  | cons s ss ih =>
    by_cases h : w.room = some 0
    · have hwrite : w.write s = (some w.refusal, w) := by simp only [write, h]
      simp [writeAll, hwrite, left_of_full h, after_of_full h]
    · have hwrite : w.write s = (none, w.offer s) := by
        unfold offer write
        split
        · rfl
        · next hfull => exact absurd hfull h
        · rfl
      simp only [writeAll, hwrite, after_cons]
      rw [ih, left_cons w s _ _ h, refusal_offer]

@[simp]
theorem refusal_after (w : Writer) (ss : List String) : (w.after ss).refusal = w.refusal := by
  induction ss generalizing w with
  | nil => rfl
  | cons s ss ih => rw [after_cons, ih, refusal_offer]

/-- After a refusal there is no room. -/
theorem room_after_of_left {w : Writer} {ss : List String} (h : w.left ss ≠ []) : (w.after ss).room = some 0 := by
  induction ss generalizing w with
  | nil => exact absurd (left_nil w) h
  | cons s ss ih =>
    by_cases hfull : w.room = some 0
    · rw [after_of_full hfull]
      exact hfull
    · rw [left_cons w s _ _ hfull] at h
      exact ih h

/-- A writer of unlimited room takes whatever it is offered. -/
theorem after_unlimited {w : Writer} (h : w.room = none) (ss : List String) :
    w.after ss = { w with taken := ss.reverse ++ w.taken } := by
  induction ss generalizing w with
  | nil => rfl
  | cons s ss ih =>
    have hoffer : w.offer s = { w with taken := s :: w.taken } := by simp only [offer, write, h]
    have hroom : (w.offer s).room = none := by rw [hoffer]; exact h
    rw [after_cons, ih hroom, hoffer]
    simp

/-- A writer takes as many texts as it has room for, and no others. -/
theorem after_limited (n : Nat) (refusal : String) (taken ss : List String) :
    ({ room := some n, refusal, taken } : Writer).after ss =
      { room := some (n - ss.length), refusal, taken := (ss.take n).reverse ++ taken } := by
  induction ss generalizing n taken with
  | nil => simp
  | cons s ss ih =>
    cases n with
    | zero =>
      rw [after_of_full rfl]
      simp
    | succ n =>
      rw [after_cons]
      simp only [offer, write]
      rw [ih]
      simp

end Writer

namespace PromptLoop

/-! ## Rounds -/

/-- A line that was evaluated, what it gave, and the session after it. -/
structure Round where
  line : Source
  result : Result
  session : Session

/-- The lines that come before the end, each evaluated in the session that the one before has left, and the error that
the end is reported with. The end is that of the lines, the first one that says `exit`, or the first one that is too
long. If the evaluation of a line needs more fuel, no end is come to. -/
def rounds (patience : Patience) (fuel : Nat) : List Text.Line → Session → List Round × Option (Option String)
  | [], _ => ([], some none)
  | l :: ls, s =>
    if lineLimit ≤ l.bytes.length then ([], some (some tooLong))
    else if Text.dropReturn l.bytes = Session.exitLine then ([], some none)
    else
      match s.eval patience fuel (Text.dropReturn l.bytes) with
      | none => ([], none)
      | some (r, s) => (⟨Text.dropReturn l.bytes, r, s⟩ :: (rounds patience fuel ls s).1, (rounds patience fuel ls s).2)

/-- The session after the rounds. -/
def lastSession (s : Session) : List Round → Session
  | [] => s
  | r :: rs => lastSession r.session rs

/-- Something that is written: the prompt, or a text of a result. -/
inductive Put where
  | prompt (text : String)
  | shown (text : String)
  deriving DecidableEq, Repr

namespace Put

def text : Put → String
  | .prompt s => s
  | .shown s => s

/-- Whether it belongs to a result. -/
def isShown : Put → Bool
  | .prompt _ => false
  | .shown _ => true

end Put

/-- What is written in a round. -/
def Round.puts (prompt : String) (r : Round) : List Put := .prompt prompt :: r.result.writes.map .shown

/-- All that is written: each round, and one more prompt for the end. -/
def transcript (prompt : String) (rs : List Round) : List Put := rs.flatMap (Round.puts prompt) ++ [.prompt prompt]

theorem transcript_cons (prompt : String) (r : Round) (rs : List Round) :
    transcript prompt (r :: rs) = r.puts prompt ++ transcript prompt rs := by
  simp [transcript]

/-- Whether something of a result is among what the writer has no room for. -/
def refuses (w : Writer) (puts : List Put) : Bool := (w.left puts).any Put.isShown

/-! ## The loop -/

/-- The loop, with the lines that it evaluates. -/
def course (patience : Patience) (fuel : Nat) (prompt : String) :
    List Text.Line → Session → Writer → List Round × Option End
  | [], s, w => ([], some ⟨s, w.offer prompt, none⟩)
  | l :: ls, s, w =>
    let w := w.offer prompt
    if lineLimit ≤ l.bytes.length then ([], some ⟨s, w, some tooLong⟩)
    else if Text.dropReturn l.bytes = Session.exitLine then ([], some ⟨s, w, none⟩)
    else
      match s.eval patience fuel (Text.dropReturn l.bytes) with
      | none => ([], none)
      | some (r, s) =>
        match w.writeAll r.writes with
        | (none, w) =>
          let later := course patience fuel prompt ls s w
          (⟨Text.dropReturn l.bytes, r, s⟩ :: later.1, later.2)
        | (some e, w) => ([⟨Text.dropReturn l.bytes, r, s⟩], some ⟨s, w, some e⟩)

section
variable {patience : Patience} {fuel : Nat} {prompt : String}

/-- Noting the lines changes nothing. -/
theorem course_end (ls : List Text.Line) (s : Session) (w : Writer) :
    (course patience fuel prompt ls s w).2 = run patience fuel prompt ls s w := by
  induction ls generalizing s w with
  | nil => rfl
  | cons l ls ih =>
    simp only [course, run]
    split
    · rfl
    · split
      · rfl
      · cases s.eval patience fuel (Text.dropReturn l.bytes) with
        | none => rfl
        | some x =>
          obtain ⟨r, s'⟩ := x
          simp only
          generalize (w.offer prompt).writeAll r.writes = y
          obtain ⟨refused, w'⟩ := y
          cases refused with
          | none => exact ih s' w'
          | some e => rfl

theorem texts_puts (r : Round) : (r.puts prompt).map Put.text = prompt :: r.result.writes := by
  simp [Round.puts, Put.text, Function.comp_def]

/-- Something of the result is refused exactly if the texts do not all fit after the prompt. -/
theorem refuses_puts (w : Writer) (r : Round) :
    refuses w (r.puts prompt) = !((w.offer prompt).left r.result.writes).isEmpty := by
  have hshown (ss : List String) : (ss.map Put.shown).any Put.isShown = !ss.isEmpty := by
    cases ss with
    | nil => rfl
    | cons s ss => rfl
  have hleft (u : Writer) : u.left (r.result.writes.map Put.shown) = (u.left r.result.writes).map .shown := by
    unfold Writer.left
    split
    · rfl
    · rw [List.map_drop]
  unfold refuses Round.puts
  by_cases h : w.room = some 0
  · rw [Writer.left_of_full h, Writer.offer_of_full h, Writer.left_of_full h]
    exact hshown _
  · rw [Writer.left_cons w prompt _ _ h, hleft, hshown]

/-- A prompt by itself is nothing of a result. -/
theorem refuses_prompt (w : Writer) : refuses w (transcript prompt []) = false := by
  unfold refuses Writer.left transcript
  split
  · rfl
  · next n _ => cases n <;> simp [Put.isShown]

/-- What follows a round meets the writer that the round has left. -/
theorem refuses_round (w : Writer) (r : Round) (puts : List Put) :
    refuses w (r.puts prompt ++ puts) =
      (refuses w (r.puts prompt) || refuses ((w.offer prompt).after r.result.writes) puts) := by
  unfold refuses
  rw [Writer.left_append Put.text, List.any_append, texts_puts, Writer.after_cons]

theorem after_round (w : Writer) (r : Round) (puts : List Put) :
    w.after ((r.puts prompt ++ puts).map Put.text) =
      ((w.offer prompt).after r.result.writes).after (puts.map Put.text) := by
  rw [List.map_append, Writer.after_append, texts_puts, Writer.after_cons]

section
variable {l : Text.Line} {ls : List Text.Line} {s s' : Session} {r : Result} {w : Writer}
  (hshort : ¬ lineLimit ≤ l.bytes.length) (hline : Text.dropReturn l.bytes ≠ Session.exitLine)
  (heval : s.eval patience fuel (Text.dropReturn l.bytes) = some (r, s'))
include hshort hline heval

theorem rounds_cons : rounds patience fuel (l :: ls) s =
    (⟨Text.dropReturn l.bytes, r, s'⟩ :: (rounds patience fuel ls s').1, (rounds patience fuel ls s').2) := by
  simp only [rounds, if_neg hshort, if_neg hline, heval]

/-- A line that is evaluated and shown: the loop goes on with what it has left of the writer. -/
theorem course_of_shown (h : refuses w (Round.puts prompt ⟨Text.dropReturn l.bytes, r, s'⟩) = false) :
    course patience fuel prompt (l :: ls) s w =
      let later := course patience fuel prompt ls s' ((w.offer prompt).after r.writes)
      (⟨Text.dropReturn l.bytes, r, s'⟩ :: later.1, later.2) := by
  have hfits : ((w.offer prompt).left r.writes).isEmpty = true := by
    rw [refuses_puts] at h
    simpa using h
  simp only [course, if_neg hshort, if_neg hline, heval, Writer.writeAll_eq, hfits, if_true]

/-- A line that is evaluated and not shown: the loop ends, and the writer takes nothing more whatever it is offered. -/
theorem course_of_refused (h : refuses w (Round.puts prompt ⟨Text.dropReturn l.bytes, r, s'⟩) = true)
    (texts : List String) :
    course patience fuel prompt (l :: ls) s w = ([⟨Text.dropReturn l.bytes, r, s'⟩],
      some ⟨s', ((w.offer prompt).after r.writes).after texts, some w.refusal⟩) := by
  have hleft : (w.offer prompt).left r.writes ≠ [] := by
    rw [refuses_puts] at h
    simpa using h
  have hrefused : ((w.offer prompt).left r.writes).isEmpty = false := by simpa using hleft
  rw [Writer.after_of_full (Writer.room_after_of_left hleft)]
  simp [course, hshort, hline, heval, Writer.writeAll_eq, hrefused]

end

/-- **The loop and the transcript.** What a writer has taken at the end is what it would have taken of the whole
transcript. The loop gets through all rounds if nothing of a result is refused; else it ends with the first round of
which something is. -/
theorem course_eq (ls : List Text.Line) (s : Session) (w : Writer) :
    let all := rounds patience fuel ls s
    let w' := w.after ((transcript prompt all.1).map Put.text)
    (refuses w (transcript prompt all.1) = false →
      course patience fuel prompt ls s w = (all.1, all.2.map fun error => ⟨lastSession s all.1, w', error⟩)) ∧
    (refuses w (transcript prompt all.1) = true →
      ∃ before r later, all.1 = before ++ r :: later ∧
        refuses w (before.flatMap (Round.puts prompt)) = false ∧
        refuses w ((before ++ [r]).flatMap (Round.puts prompt)) = true ∧
        course patience fuel prompt ls s w = (before ++ [r], some ⟨r.session, w', some w.refusal⟩)) := by
  have hprompt (w : Writer) : refuses w (transcript prompt []) ≠ true := by
    rw [refuses_prompt]
    exact Bool.false_ne_true
  induction ls generalizing s w with
  | nil => exact ⟨fun _ => rfl, fun hlate => absurd hlate (hprompt w)⟩
  | cons l ls ih =>
    by_cases hlong : lineLimit ≤ l.bytes.length
    · simp only [rounds, course, if_pos hlong]
      exact ⟨fun _ => rfl, fun hlate => absurd hlate (hprompt w)⟩
    by_cases hline : Text.dropReturn l.bytes = Session.exitLine
    · simp only [rounds, course, if_neg hlong, if_pos hline]
      exact ⟨fun _ => rfl, fun hlate => absurd hlate (hprompt w)⟩
    cases heval : s.eval patience fuel (Text.dropReturn l.bytes) with
    | none =>
      simp only [rounds, course, if_neg hlong, if_neg hline, heval]
      exact ⟨fun _ => rfl, fun hlate => absurd hlate (hprompt w)⟩
    | some x =>
      obtain ⟨r, s'⟩ := x
      rw [rounds_cons hlong hline heval]
      simp only [transcript_cons, refuses_round, after_round]
      -- The round that fails is this one, or the rest goes on with what this one has left of the writer.
      cases hround : refuses w (Round.puts prompt ⟨Text.dropReturn l.bytes, r, s'⟩) with
      | true =>
        refine ⟨fun hall => absurd hall (by simp), fun _ => ⟨[], ⟨_, r, s'⟩, _, rfl, ?_, ?_, ?_⟩⟩
        · simp [refuses]
        · simpa using hround
        · exact course_of_refused hlong hline heval hround _
      | false =>
        obtain ⟨hall, hlate⟩ := ih s' ((w.offer prompt).after r.writes)
        rw [course_of_shown hlong hline heval hround, Bool.false_or]
        constructor
        · intro h
          rw [hall h]
          rfl
        · intro h
          obtain ⟨before, r', later, hrounds, hbefore, hr', heq⟩ := hlate h
          refine ⟨⟨Text.dropReturn l.bytes, r, s'⟩ :: before, r', later, ?_, ?_, ?_, ?_⟩
          · rw [hrounds, List.cons_append]
          · rw [List.flatMap_cons, refuses_round, hround, Bool.false_or]
            exact hbefore
          · rw [List.cons_append, List.flatMap_cons, refuses_round, hround, Bool.false_or]
            exact hr'
          · rw [heq, Writer.refusal_after, Writer.refusal_offer]
            rfl

/-- A writer that never refuses gets the whole transcript, and all lines up to the end are evaluated. -/
theorem course_unlimited (ls : List Text.Line) (s : Session) :
    course patience fuel prompt ls s {} =
      let all := rounds patience fuel ls s
      (all.1, all.2.map fun error =>
        ⟨lastSession s all.1, { taken := ((transcript prompt all.1).map Put.text).reverse }, error⟩) := by
  rw [(course_eq ls s {}).1 rfl, Writer.after_unlimited rfl, List.append_nil]

/-- The lines themselves can only end with the one error. -/
theorem error_of_rounds {ls : List Text.Line} {s : Session} {error : String}
    (h : (rounds patience fuel ls s).2 = some (some error)) : error = tooLong := by
  induction ls generalizing s with
  | nil => simp [rounds] at h
  | cons l ls ih =>
    by_cases hlong : lineLimit ≤ l.bytes.length
    · simp only [rounds, if_pos hlong, Option.some.injEq] at h
      exact h.symm
    by_cases hline : Text.dropReturn l.bytes = Session.exitLine
    · simp [rounds, hlong, hline] at h
    cases heval : s.eval patience fuel (Text.dropReturn l.bytes) with
    | none => simp [rounds, hlong, hline, heval] at h
    | some x =>
      rw [rounds_cons hlong hline heval] at h
      exact ih h

end

/-- **The transcript of the loop, also when the writer fails.** A writer that never refuses gets all that the rounds
write and one more prompt. One that takes only the first `n` writes ends up with these. If every text of a result is
among them, the loop goes through the same rounds and ends alike. If not, it ends with the refusal, and it has evaluated
the lines up to the first whose result was not all taken. -/
theorem run_limited (patience : Patience) (fuel : Nat) (prompt refusal : String) (input : List UInt8) (s : Session)
    (n : Nat) :
    let ls := Text.lines input
    let all := rounds patience fuel ls s
    let puts := transcript prompt all.1
    let texts := puts.map Put.text
    let failing : Writer := { room := some n, refusal }
    let full : Writer := { room := some (n - texts.length), refusal, taken := (texts.take n).reverse }
    ((course patience fuel prompt ls s {}).1 = all.1 ∧
      run patience fuel prompt ls s {} =
        all.2.map fun error => ⟨lastSession s all.1, { taken := texts.reverse }, error⟩) ∧
    (∀ e, run patience fuel prompt ls s failing = some e → e.writer.text = "".intercalate (texts.take n) ∧
      (refusal ≠ tooLong → (e.error = some refusal ↔ ∃ x ∈ puts.drop n, x.isShown = true))) ∧
    ((∀ x ∈ puts.drop n, x.isShown = false) →
      (course patience fuel prompt ls s failing).1 = all.1 ∧
        run patience fuel prompt ls s failing = all.2.map fun error => ⟨lastSession s all.1, full, error⟩) ∧
    ((∃ x ∈ puts.drop n, x.isShown = true) →
      ∃ before r later, all.1 = before ++ r :: later ∧
        (∀ x ∈ (before.flatMap (Round.puts prompt)).drop n, x.isShown = false) ∧
        (∃ x ∈ ((before ++ [r]).flatMap (Round.puts prompt)).drop n, x.isShown = true) ∧
        (course patience fuel prompt ls s failing).1 = before ++ [r] ∧
        run patience fuel prompt ls s failing = some ⟨r.session, full, some refusal⟩) := by
  intro ls all puts texts failing full
  have hany (xs : List Put) : refuses failing xs = true ↔ ∃ x ∈ xs.drop n, x.isShown = true := List.any_eq_true
  have hno (xs : List Put) : refuses failing xs = false ↔ ∀ x ∈ xs.drop n, x.isShown = false := by
    rw [← Bool.not_eq_true, hany]
    simp
  have hfull : failing.after texts = full := by
    rw [Writer.after_limited]
    simp [full]
  obtain ⟨hshown, hlate⟩ := @course_eq patience fuel prompt ls s failing
  have hfine : (∀ x ∈ puts.drop n, x.isShown = false) →
      (course patience fuel prompt ls s failing).1 = all.1 ∧
        run patience fuel prompt ls s failing = all.2.map fun error => ⟨lastSession s all.1, full, error⟩ := by
    intro h
    rw [← course_end, hshown ((hno _).mpr h), hfull]
    exact ⟨rfl, rfl⟩
  have hfails : (∃ x ∈ puts.drop n, x.isShown = true) →
      ∃ before r later, all.1 = before ++ r :: later ∧
        (∀ x ∈ (before.flatMap (Round.puts prompt)).drop n, x.isShown = false) ∧
        (∃ x ∈ ((before ++ [r]).flatMap (Round.puts prompt)).drop n, x.isShown = true) ∧
        (course patience fuel prompt ls s failing).1 = before ++ [r] ∧
        run patience fuel prompt ls s failing = some ⟨r.session, full, some refusal⟩ := by
    intro h
    obtain ⟨before, r, later, hrounds, hbefore, hr, heq⟩ := hlate ((hany _).mpr h)
    refine ⟨before, r, later, hrounds, (hno _).mp hbefore, (hany _).mp hr, by rw [heq], ?_⟩
    rw [← course_end, heq, hfull]
  refine ⟨?_, ?_, hfine, hfails⟩
  · rw [← course_end, course_unlimited]
    exact ⟨rfl, rfl⟩
  · intro e he
    by_cases h : ∃ x ∈ puts.drop n, x.isShown = true
    · obtain ⟨before, r, later, -, -, -, -, hrun⟩ := hfails h
      obtain rfl := Option.some.inj (he.symm.trans hrun)
      exact ⟨by simp [full, Writer.text], fun _ => ⟨fun _ => h, fun _ => rfl⟩⟩
    · have hall : ∀ x ∈ puts.drop n, x.isShown = false := by simpa using h
      rw [(hfine hall).2] at he
      obtain ⟨error, herror, rfl⟩ := Option.map_eq_some_iff.mp he
      refine ⟨by simp [full, Writer.text], fun hne => ⟨fun heq => ?_, fun hsome => absurd hsome h⟩⟩
      obtain rfl : error = some refusal := heq
      exact absurd (error_of_rounds herror) hne

/-- Four lines: the second is empty and the first shows nothing either. -/
def quietLines : List UInt8 := Source.ofString "let x = 2;\n\nx * 21\nexit\n"

/-- A writer that takes one prompt is broken long before the loop ends. -/
theorem run_limited_quietLines : ∃ e, run .endless 20 ">> " (Text.lines quietLines) (Session.new 8) { room := some 1 } =
      some e ∧ e.writer.text = ">> " ∧ e.error = some "write failed" ∧
    (course .endless 20 ">> " (Text.lines quietLines) (Session.new 8) { room := some 1 }).1.map Round.line =
      [Source.ofString "let x = 2;", [], Source.ofString "x * 21"] := by
  have hputs : transcript ">> " (rounds .endless 20 (Text.lines quietLines) (Session.new 8)).1 =
      [.prompt ">> ", .prompt ">> ", .prompt ">> ", .shown "42\n", .prompt ">> "] := by decide +kernel
  obtain ⟨-, hend, -, hlate⟩ := run_limited .endless 20 ">> " "write failed" quietLines (Session.new 8) 1
  rw [hputs] at hend hlate
  obtain ⟨before, r, later, -, -, -, -, hrun⟩ := hlate ⟨.shown "42\n", by simp, rfl⟩
  exact ⟨_, hrun, (hend _ hrun).1, rfl, by decide +kernel⟩

end PromptLoop

end LetLang
