import LetLang.Log
import LetLang.Proofs.Evaluation.Sequence
import LetLang.Proofs.Parser.Joining
import LetLang.Session

/-!
# A session, and all its texts at once

Texts can be given to a session one after the other, or joined with line breaks between them and all at once. If each of
them is complete, this makes no difference: the joined text is read as the texts one after the other, and so it is run.

Only one thing can come in between. A statement of a text that yields an error or a returned value ends that text and no
other, but it ends the joined text altogether. So the two agree up to and with the first text that has such a statement:
what the joined text gives is what the session had at that point (`Session.joined_agrees`).
-/

set_option autoImplicit false

namespace LetLang

open Eval

/-- The log of a machine with an earlier past starts with what was logged then. -/
theorem Machine.log_after (past : List Event) (m : Machine) :
    (m.after past).log = past.reverse.filterMap Event.logLine? ++ m.log := by
  simp [Machine.log, Machine.events, Machine.after]

namespace Session

variable {s s' t t' : Session} {src : Source} {srcs : List Source} {r : Result}

/-- The limits of a session that nobody loses patience with. -/
def limits (s : Session) : Limits := { maxDepth := s.maxDepth, patience := .endless }

/-- The machine on which the session starts the next text. -/
def ready (s : Session) : Machine := { s.machine with depth := 0, trace := [] }

/-- The text gives that result, and the session goes on as `s'`. -/
def Evaluates (s : Session) (src : Source) (r : Result) (s' : Session) : Prop :=
  ∃ enough, ∀ fuel ≥ enough, s.eval .endless fuel src = some (r, s')

/-- A statement of the text yields an error or a returned value when it is given to the session. -/
def Interrupts (s : Session) (src : Source) : Prop :=
  ∃ v, StatementYields s.limits s.scope (Program.ofSource src).1 s.ready v ∧ v.isFinal = true

/-- The texts are given to the session in order, and no statement of them yields an error or a returned value. The list
has the session after each text. -/
inductive GoesOn : Session → List Source → List Session → Session → Prop where
  | nil {s : Session} : GoesOn s [] [] s
  | cons {s s' t : Session} {src : Source} {srcs : List Source} {ss : List Session} {r : Result} :
      s.Evaluates src r s' → ¬ s.Interrupts src → GoesOn s' srcs ss t → GoesOn s (src :: srcs) (s' :: ss) t

theorem eval_eq_map (h : (Program.ofSource src).2 = []) (fuel : Nat) :
    s.eval .endless fuel src = (({ s.machine with trace := [] } : Machine).eval s.limits fuel s.scope
      (.program (Program.ofSource src).1)).map fun x => ({ value := x.1 }, { s with machine := x.2 }) := by
  generalize hp : Program.ofSource src = x at h
  obtain ⟨p, ds⟩ := x
  obtain rfl : ds = [] := h
  simp only [Session.eval, hp, limits]
  split
  · next hnone => rw [hnone]; rfl
  · next hsome => rw [hsome]; rfl

theorem evaluates_iff (h : (Program.ofSource src).2 = []) :
    s.Evaluates src r s' ↔ ∃ v n, Yields s.limits (.program s.scope (Program.ofSource src).1 .absent) s.ready v n ∧
      r = { value := v } ∧ s' = { s with machine := n } := by
  have hyields {v : Value} {n : Machine} : ({ s.machine with trace := [] } : Machine).Evaluates s.limits s.scope
      (.program (Program.ofSource src).1) v n ↔
        Yields s.limits (.program s.scope (Program.ofSource src).1 .absent) s.ready v n := Machine.evaluates_iff
  constructor
  · rintro ⟨enough, hall⟩
    have henough := hall enough (Nat.le_refl _)
    rw [eval_eq_map h] at henough
    obtain ⟨⟨v, n⟩, hv, heq⟩ := Option.map_eq_some_iff.mp henough
    obtain ⟨rfl, rfl⟩ := Prod.mk.inj heq
    exact ⟨v, n, hyields.mp (Machine.evaluates_of_eval hv), rfl, rfl⟩
  · rintro ⟨v, n, hy, rfl, rfl⟩
    obtain ⟨enough, hv⟩ := hyields.mpr hy
    refine ⟨enough, fun fuel hfuel => ?_⟩
    rw [eval_eq_map h, hv fuel hfuel]
    rfl

/-- One amount of fuel that suffices is enough to know. -/
theorem exists_evaluates (h : (Program.ofSource src).2 = []) {fuel : Nat}
    (hends : (s.eval .endless fuel src).isSome = true) : ∃ r s', s.Evaluates src r s' := by
  rw [eval_eq_map h, Option.isSome_map] at hends
  obtain ⟨⟨v, n⟩, hv⟩ := Option.isSome_iff_exists.mp hends
  exact ⟨_, _, (evaluates_iff h).mpr ⟨v, n, Machine.evaluates_iff.mp (Machine.evaluates_of_eval hv), rfl, rfl⟩⟩

/-! ## One text after the other -/

/-- What happened in the texts so far, newest first. -/
def past : List Session → List Event
  | [] => []
  | s :: ss => past ss ++ s.machine.trace

theorem log_past (ss : List Session) :
    (past ss).reverse.filterMap Event.logLine? = ss.flatMap fun s => s.machine.log := by
  induction ss with
  | nil => rfl
  | cons s ss ih =>
    rw [past, List.reverse_append, List.filterMap_append, ih]
    rfl

/-- A run leaves as many calls under way as there were, so the next text starts where it has ended, but for the past. -/
theorem ready_of_yields {p : Program} {last v : Value} {n : Machine}
    (h : Yields s.limits (.program s.scope p last) s.ready v n) :
    ({ s with machine := n } : Session).ready.after n.trace = n := by
  have hdepth : n.depth = 0 := (progress_of_yields h).depth
  simp only [ready, Machine.after, List.nil_append, ← hdepth]

theorem passes_of_not_interrupts {v : Value} {n : Machine} (hno : ¬ s.Interrupts src)
    (h : Yields s.limits (.program s.scope (Program.ofSource src).1 .absent) s.ready v n) :
    Passes s.limits s.scope (Program.ofSource src).1 .absent s.ready v n := by
  rcases (yields_program_iff rfl).mp h with hstop | hpass
  · exact absurd (hstop.exists_statement rfl) hno
  · exact hpass

theorem stops_of_interrupts {v : Value} {n : Machine} (hint : s.Interrupts src)
    (h : Yields s.limits (.program s.scope (Program.ofSource src).1 .absent) s.ready v n) :
    Stops s.limits s.scope (Program.ofSource src).1 s.ready v n := by
  rcases (yields_program_iff rfl).mp h with hstop | hpass
  · exact hstop
  · obtain ⟨w, hw, hfinal⟩ := hint
    rw [hpass.isFinal hw] at hfinal
    exact absurd hfinal (by simp)

/-- The texts that a session goes through pass in one run, and it ends where the session has come to. -/
theorem GoesOn.passes {ss : List Session} (h : GoesOn s srcs ss t) : (∀ src ∈ srcs, src.Complete) →
    t.limits = s.limits ∧ t.scope = s.scope ∧ ∀ last, ∃ v, Passes s.limits s.scope
      (srcs.flatMap fun src => (Program.ofSource src).1) last s.ready v (t.ready.after (past ss)) := by
  induction h with
  | @nil s =>
    refine fun _ => ⟨rfl, rfl, fun last => ⟨last, ?_⟩⟩
    simp only [past, Machine.after, List.append_nil]
    exact .nil
  | @cons s s' t src srcs ss r heval hno _ ih =>
    intro hcomplete
    have hsrc := hcomplete src List.mem_cons_self
    obtain ⟨v, n, hy, -, rfl⟩ := (evaluates_iff hsrc.clean).mp heval
    obtain ⟨hlimits, hscope, hrest⟩ := ih fun x hx => hcomplete x (List.mem_cons_of_mem _ hx)
    refine ⟨hlimits, hscope, fun last => ?_⟩
    obtain ⟨w, hpass⟩ := hrest v
    have hpast := hpass.after n.trace
    rw [ready_of_yields hy, Machine.after_after] at hpast
    exact ⟨w, ((passes_of_not_interrupts hno hy).of_ne_nil hsrc.program_ne_nil).append hpast⟩

theorem evaluates_joined_iff {srcs : List Source} (hne : srcs ≠ []) (h : ∀ src ∈ srcs, src.Complete) :
    s.Evaluates (.joined srcs) r s' ↔ ∃ v n, Yields s.limits
      (.program s.scope (srcs.flatMap fun src => (Program.ofSource src).1) .absent) s.ready v n ∧
        r = { value := v } ∧ s' = { s with machine := n } := by
  have hjoined := Program.ofSource_joined h hne
  rw [evaluates_iff (by rw [hjoined]), hjoined]

/-- The text that a session comes to last, in one run with those before it and those after it. -/
theorem yields_joined {before after : List Source} {ss : List Session} {w : Value} {n : Machine}
    (hbefore : ∀ x ∈ before, x.Complete) (hsrc : src.Complete) (hgoes : GoesOn s before ss t)
    (hy : Yields t.limits (.program t.scope (Program.ofSource src).1 .absent) t.ready w n)
    (hlast : after = [] ∨ t.Interrupts src) :
    Yields s.limits (.program s.scope ((before ++ src :: after).flatMap fun src => (Program.ofSource src).1) .absent)
      s.ready w (n.after (past ss)) := by
  obtain ⟨hlimits, hscope, hpasses⟩ := hgoes.passes hbefore
  obtain ⟨v, hpass⟩ := hpasses .absent
  rw [List.flatMap_append, List.flatMap_cons]
  refine (yields_append_iff rfl).mpr (.inr ⟨v, _, hpass, yields_after_iff.mpr ⟨n, ?_, rfl⟩⟩)
  rw [← hlimits, ← hscope]
  rcases hlast with rfl | hint
  · rw [List.flatMap_nil, List.append_nil, yields_program_iff rfl]
    exact ((yields_program_iff rfl).mp hy).imp_right (Passes.of_ne_nil hsrc.program_ne_nil)
  · exact (yields_append_iff rfl).mpr (.inl (stops_of_interrupts hint hy))

/-- A run of all texts comes to the last of them or to one that is interrupted. -/
theorem exists_goesOn : ∀ {srcs : List Source} {s : Session} {last w : Value} {n : Machine}, srcs ≠ [] →
    (∀ src ∈ srcs, src.Complete) →
    Yields s.limits (.program s.scope (srcs.flatMap fun src => (Program.ofSource src).1) last) s.ready w n →
    ∃ before src after ss t n', srcs = before ++ src :: after ∧ GoesOn s before ss t ∧
      Yields t.limits (.program t.scope (Program.ofSource src).1 .absent) t.ready w n' ∧
      (after = [] ∨ t.Interrupts src) := by
  intro srcs
  induction srcs with
  | nil => exact fun hne => absurd rfl hne
  | cons src srcs ih =>
    intro s last w n _ hcomplete hy
    have hsrc := hcomplete src List.mem_cons_self
    rw [List.flatMap_cons] at hy
    rcases (yields_append_iff rfl).mp hy with hstop | ⟨v, n₁, hpass, hrest⟩
    · exact ⟨[], src, srcs, [], s, n, rfl, .nil, (yields_program_iff rfl).mpr (.inl hstop),
        .inr (hstop.exists_statement rfl)⟩
    · have hpass' : Passes s.limits s.scope (Program.ofSource src).1 .absent s.ready v n₁ :=
        hpass.of_ne_nil hsrc.program_ne_nil
      have hy₁ := (yields_program_iff rfl).mpr (.inr hpass')
      cases srcs with
      | nil =>
        obtain ⟨rfl, rfl⟩ := yields_nil_iff.mp hrest
        exact ⟨[], src, [], [], s, n, rfl, .nil, hy₁, .inl rfl⟩
      | cons src' srcs =>
        -- the rest runs in the session that this text leaves
        rw [← ready_of_yields hy₁] at hrest
        obtain ⟨n₂, hrest, -⟩ := yields_after_iff.mp hrest
        obtain ⟨before, x, after, ss, t, n', heq, hgoes, hx, hlast⟩ :=
          ih (s := { s with machine := n₁ }) (by simp) (fun x hx => hcomplete x (List.mem_cons_of_mem _ hx)) hrest
        have hno : ¬ s.Interrupts src := by
          rintro ⟨u, hu, hfinal⟩
          rw [hpass'.isFinal hu] at hfinal
          exact absurd hfinal (by simp)
        have heval := (evaluates_iff hsrc.clean).mpr ⟨v, n₁, hy₁, rfl, rfl⟩
        exact ⟨src :: before, x, after, _ :: ss, t, n', by rw [heq]; rfl, .cons heval hno hgoes, hx, hlast⟩

/-- **A session that is given its texts one by one agrees with one that is given them joined.** The session comes to a
text, through texts without a statement that yields an error or a returned value; this is the last text, or the first
one with such a statement. Then the joined text gives the same result as this text, leaves the same bindings in the same
store, and has logged what the session has logged since the start. It ends only if the session comes to such a text. -/
theorem joined_agrees (s : Session) {srcs : List Source} (hne : srcs ≠ []) (h : ∀ src ∈ srcs, src.Complete) :
    (∀ before src after ss t r t', srcs = before ++ src :: after → s.GoesOn before ss t → t.Evaluates src r t' →
      (after = [] ∨ t.Interrupts src) →
      ∃ s', s.Evaluates (.joined srcs) r s' ∧ (∀ x, s'.get? x = t'.get? x) ∧
        s'.machine.store = t'.machine.store ∧
        s'.machine.log = (ss.flatMap fun u => u.machine.log) ++ t'.machine.log) ∧
    (∀ r s', s.Evaluates (.joined srcs) r s' →
      ∃ before src after ss t t', srcs = before ++ src :: after ∧ s.GoesOn before ss t ∧ t.Evaluates src r t' ∧
        (after = [] ∨ t.Interrupts src)) := by
  constructor
  · rintro before src after ss t r t' rfl hgoes heval hlast
    have hbefore : ∀ x ∈ before, x.Complete := fun x hx => h x (List.mem_append_left _ hx)
    have hsrc : src.Complete := h src (List.mem_append_right _ List.mem_cons_self)
    obtain ⟨w, n, hy, rfl, rfl⟩ := (evaluates_iff hsrc.clean).mp heval
    have hjoined := yields_joined hbefore hsrc hgoes hy hlast
    refine ⟨_, (evaluates_joined_iff hne h).mpr ⟨w, _, hjoined, rfl, rfl⟩, fun x => ?_, rfl, ?_⟩
    · have hscope := (hgoes.passes hbefore).2.1
      simp only [get?, hscope]
      rfl
    · rw [Machine.log_after, log_past]
  · intro r s' heval
    obtain ⟨w, n, hy, rfl, rfl⟩ := (evaluates_joined_iff hne h).mp heval
    obtain ⟨before, src, after, ss, t, n', rfl, hgoes, hy', hlast⟩ := exists_goesOn hne h hy
    have hsrc : src.Complete := h src (List.mem_append_right _ List.mem_cons_self)
    exact ⟨before, src, after, ss, t, _, rfl, hgoes, (evaluates_iff hsrc.clean).mpr ⟨w, n', hy', rfl, rfl⟩, hlast⟩

/-- Three texts, of which the second fails: it calls a function with a name that is not bound. -/
def failingTexts : List Source :=
  [.ofString "let twice = fn(x) \x7b x * 2 \x7d; twice(4);", .ofString "let y = twice(z);", .ofString "let y = 3;"]

/-- The joined texts end, with what the session has when it comes to the text that fails. -/
theorem joined_agrees_failingTexts : ∃ before src after ss t t' r s',
    failingTexts = before ++ src :: after ∧ (Session.new 8).GoesOn before ss t ∧ t.Evaluates src r t' ∧
    (after = [] ∨ t.Interrupts src) ∧ (Session.new 8).Evaluates (.joined failingTexts) r s' ∧
    ∀ x, s'.get? x = t'.get? x := by
  have hcomplete : ∀ src ∈ failingTexts, src.Complete := by
    intro src hsrc
    have hall : ∀ src ∈ failingTexts, 0 ∉ src ∧ (Program.ofSource src).2 = [] ∧
        src.tokens.getLast?.map Token.kind = some .semicolon := by decide +kernel
    obtain ⟨h₀, hclean, hclosed⟩ := hall src hsrc
    exact ⟨h₀, hclean, hclosed⟩
  have hclean : (Program.ofSource (.joined failingTexts)).2 = [] := by decide +kernel
  have hends : ((Session.new 8).eval .endless 40 (.joined failingTexts)).isSome = true := by decide +kernel
  obtain ⟨r, s₁, hs₁⟩ := exists_evaluates hclean hends
  have hagree := joined_agrees (Session.new 8) (by decide) hcomplete
  obtain ⟨before, src, after, ss, t, t', heq, hgoes, heval, hlast⟩ := hagree.2 r s₁ hs₁
  obtain ⟨s', hs', hsame, -⟩ := hagree.1 before src after ss t r t' heq hgoes heval hlast
  exact ⟨before, src, after, ss, t, t', r, s', heq, hgoes, heval, hlast, hs', hsame⟩

end Session

end LetLang
