import LetLang.Proofs.Evaluation.Returns
import Mathlib.Data.List.Forall2

/-!
# Two runs side by side

A program cannot tell where a scope stands in the store or which number a function has. All it can do with a scope is to
look up names and to bind them, and all it can do with an identity is to compare it. So two machines that correspond up
to a **renaming** of scopes and identities run alike: they ask for corresponding tasks, in step, and end with
corresponding values or not at all.

When two machines correspond is for a `Simulation` to say. It has to be kept by the few operations of a machine, for a
renaming that may grow: a call adds a scope on either side, a function literal an identity, and from then on these
correspond. What the forms of the language do is looked at here, once (`Simulation.plan`), and nowhere else.
-/

set_option autoImplicit false

namespace LetLang

/-! ## Renamings -/

/-- A one-to-one correspondence of scopes and of identities. -/
structure Renaming where
  scope : ScopeId → ScopeId → Prop
  identity : Nat → Nat → Prop
  scope_iff : ∀ {s s' t t' : ScopeId}, scope s s' → scope t t' → (s = t ↔ s' = t')
  identity_iff : ∀ {i i' j j' : Nat}, identity i i' → identity j j' → (i = j ↔ i' = j')

/-- The greater renaming has all pairs of the lesser. -/
instance : LE Renaming where
  le R S := (∀ s s', R.scope s s' → S.scope s s') ∧ ∀ i i', R.identity i i' → S.identity i i'

theorem Renaming.le_refl (R : Renaming) : R ≤ R := ⟨fun _ _ h => h, fun _ _ h => h⟩

theorem Renaming.le_trans {R S T : Renaming} (h : R ≤ S) (h' : S ≤ T) : R ≤ T :=
  ⟨fun s s' hs => h'.1 s s' (h.1 s s' hs), fun i i' hi => h'.2 i i' (h.2 i i' hi)⟩

theorem Renaming.beq_eq (R : Renaming) {i i' j j' : Nat} (h : R.identity i i') (h' : R.identity j j') :
    (i' == j') = (i == j) := by
  rw [Bool.eq_iff_iff, beq_iff_eq, beq_iff_eq]
  exact (R.identity_iff h h').symm

/-! ## Values -/

/-- The same value but for scopes and identities, and these correspond. -/
inductive Value.Renamed (R : Renaming) : Value → Value → Prop where
  | absent : Renamed R .absent .absent
  | int (n : Int64) : Renamed R (.int n) (.int n)
  | bool (b : Bool) : Renamed R (.bool b) (.bool b)
  | null : Renamed R .null .null
  | error (fault : Fault) : Renamed R (.error fault) (.error fault)
  | returned {i i' : Nat} {v v' : Value} : R.identity i i' → Renamed R v v' →
      Renamed R (.returned i v) (.returned i' v')
  | fn {i i' : Nat} {s s' : ScopeId} (params : List Ident) (body : Block) : R.identity i i' →
      R.scope s s' → Renamed R (.fn i params body s) (.fn i' params body s')

namespace Value.Renamed

variable {R S : Renaming} {v v' w w' : Value}

theorem mono (h : v.Renamed R v') (hle : R ≤ S) : v.Renamed S v' := by
  induction h with
  | absent => exact .absent
  | int n => exact .int n
  | bool b => exact .bool b
  | null => exact .null
  | error fault => exact .error fault
  | returned hi _ ih => exact .returned (hle.2 _ _ hi) ih
  | fn params body hi hs => exact .fn params body (hle.2 _ _ hi) (hle.1 _ _ hs)

theorem kind_eq (h : v.Renamed R v') : v'.kind = v.kind := by cases h <;> rfl

theorem isError_eq (h : v.Renamed R v') : v'.isError = v.isError := by cases h <;> rfl

theorem isTruthy_eq (h : v.Renamed R v') : v'.isTruthy = v.isTruthy := by cases h <;> rfl

theorem isPresent_eq (h : v.Renamed R v') : v'.isPresent = v.isPresent := by cases h <;> rfl

theorem isReturned_eq (h : v.Renamed R v') : v'.isReturned = v.isReturned := by cases h <;> rfl

theorem text_eq (h : v.Renamed R v') : v'.text = v.text := by
  induction h with
  | returned _ _ ih => simpa only [Value.text] using ih
  | _ => rfl

theorem opened (h : v.Renamed R v') : v.opened.Renamed R v'.opened := by
  have hself := h
  cases h with
  | returned _ hw => exact hw
  | _ => exact hself

/-- Comparing is what the renaming has to be one-to-one for. -/
theorem same_eq (h : v.Renamed R v') (h' : w.Renamed R w') : v'.same w' = v.same w := by
  cases h with
  | returned hi _ =>
    cases h' with
    | returned hj _ => exact R.beq_eq hi hj
    | _ => rfl
  | fn _ _ hi _ =>
    cases h' with
    | fn _ _ hj _ => exact R.beq_eq hi hj
    | _ => rfl
  | _ => cases h' <;> rfl

theorem of_isData (h : v.IsData) : v.Renamed R v := by
  cases v with
  | absent => exact .absent
  | int n => exact .int n
  | bool b => exact .bool b
  | null => exact .null
  | error fault => exact .error fault
  | returned _ _ | fn _ _ _ _ => exact h.elim

theorem unary (h : v.Renamed R v') (op : String) : (v.unary op).Renamed R (v'.unary op) := by
  have heq : v'.unary op = v.unary op := by
    fun_cases Value.unary op v with
    | case1 v => exact congrArg (fun b => Value.bool (!b)) h.isTruthy_eq
    | case2 n =>
      cases h
      rfl
    | case3 op v hbang hminus =>
      rw [← h.kind_eq, Value.unary]
      · exact hbang
      · rintro n rfl rfl
        cases h
        exact hminus n rfl rfl
  rw [heq]
  exact of_isData (Value.isData_unary op v)

theorem binary (h : v.Renamed R v') (h' : w.Renamed R w') (op : String) :
    (v.binary op w).Renamed R (v'.binary op w') := by
  have heq : v'.binary op w' = v.binary op w := by
    have hsame := h.same_eq h'
    have hv := h.kind_eq
    have hw := h'.kind_eq
    cases h with
    | int a =>
      cases h' with
      | int b => rfl
      | _ => simp only [Value.binary, hsame, hw]
    | _ => simp only [Value.binary, hsame, hv, hw]
  rw [heq]
  exact of_isData (Value.isData_binary op v w)

end Value.Renamed

namespace Eval

inductive Task.Renamed (R : Renaming) : Task → Task → Prop where
  | expr {s s' : ScopeId} (e : Expr) : R.scope s s' → Renamed R (.expr s e) (.expr s' e)
  | apply {f f' : Value} {args args' : List Value} : f.Renamed R f' →
      List.Forall₂ (Value.Renamed R) args args' → Renamed R (.apply f args) (.apply f' args')
  | stmt {s s' : ScopeId} (st : Stmt) : R.scope s s' → Renamed R (.stmt s st) (.stmt s' st)
  | stmts {s s' : ScopeId} (ss : List Stmt) {last last' : Value} : R.scope s s' →
      last.Renamed R last' → Renamed R (.stmts s ss last) (.stmts s' ss last')
  | program {s s' : ScopeId} (ss : Program) {last last' : Value} : R.scope s s' →
      last.Renamed R last' → Renamed R (.program s ss last) (.program s' ss last')

/-! ## Simulations -/

/-- When two machines correspond under a renaming. The operations of a machine have to keep it. -/
structure Simulation (limits : Limits) where
  Corresponds : Renaming → Machine → Machine → Prop
  answer : ∀ {R : Renaming} {m m' : Machine}, Corresponds R m m' →
    limits.patience.answer m'.asked = limits.patience.answer m.asked
  checked : ∀ {R : Renaming} {m m' : Machine}, Corresponds R m m' → Corresponds R m.checked m'.checked
  depth : ∀ {R : Renaming} {m m' : Machine}, Corresponds R m m' → m'.depth = m.depth
  enter : ∀ {R : Renaming} {m m' : Machine} (n : Nat), Corresponds R m m' →
    Corresponds R (m.enter n) (m'.enter n)
  leave : ∀ {R : Renaming} {m m' : Machine}, Corresponds R m m' → Corresponds R m.leave m'.leave
  failed : ∀ {R : Renaming} {m m' : Machine} (fault : Fault), Corresponds R m m' →
    Corresponds R (m.note (.failed fault)) (m'.note (.failed fault))
  name : ∀ {R : Renaming} {m m' : Machine} {s s' : ScopeId} (x : String), Corresponds R m m' →
    R.scope s s' → Value.Renamed R ((m.store.get? s x).getD (.error (.notFound x)))
      ((m'.store.get? s' x).getD (.error (.notFound x)))
  bind : ∀ {R : Renaming} {m m' : Machine} {s s' : ScopeId} {v v' : Value} (x : String),
    Corresponds R m m' → R.scope s s' → v.Renamed R v' →
      Corresponds R (m.bind s x v) (m'.bind s' x v')
  takeIdentity : ∀ {R : Renaming} {m m' : Machine}, Corresponds R m m' →
    ∃ S, R ≤ S ∧ S.identity m.takeIdentity.1 m'.takeIdentity.1 ∧
      Corresponds S m.takeIdentity.2 m'.takeIdentity.2
  enclose : ∀ {R : Renaming} {m m' : Machine} {s s' : ScopeId}, Corresponds R m m' → R.scope s s' →
    ∃ S, R ≤ S ∧ S.scope (m.enclose s).1 (m'.enclose s').1 ∧
      Corresponds S (m.enclose s).2 (m'.enclose s').2

section
variable {limits : Limits} (sim : Simulation limits)

/-- The plans go on in step: both are done, or both ask for corresponding tasks and go on in step whatever
corresponding answers they get. -/
inductive Plan.Renamed : Renaming → Plan → Plan → Prop where
  | done {R S : Renaming} {v v' : Value} {m m' : Machine} : R ≤ S → v.Renamed S v' →
      sim.Corresponds S m m' → Renamed R (.done v m) (.done v' m')
  | ask {R S : Renaming} {t t' : Task} {m m' : Machine} {next next' : Value → Machine → Plan} :
      R ≤ S → t.Renamed S t' → sim.Corresponds S m m' →
      (∀ {T v v' n n'}, S ≤ T → v.Renamed T v' → sim.Corresponds T n n' →
        Renamed T (next v n) (next' v' n')) → Renamed R (.ask t m next) (.ask t' m' next')

/-- Neither run ends, or both do and the results correspond. -/
inductive Agree (R : Renaming) : Option (Value × Machine) → Option (Value × Machine) → Prop where
  | none : Agree R none none
  | some {S : Renaming} {v v' : Value} {m m' : Machine} : R ≤ S → v.Renamed S v' →
      sim.Corresponds S m m' → Agree R (some (v, m)) (some (v', m'))

variable {sim} {R S : Renaming}

theorem Agree.of_le {o o' : Option (Value × Machine)} (h : Agree sim S o o') (hle : R ≤ S) : Agree sim R o o' := by
  cases h with
  | none => exact .none
  | some hS hv hm => exact .some (Renaming.le_trans hle hS) hv hm

theorem Plan.Renamed.exec {answer answer' : Task → Eval Value}
    (h : ∀ {S t t' m m'}, Task.Renamed S t t' → sim.Corresponds S m m' → Agree sim S (answer t m) (answer' t' m'))
    {p p' : Plan} (hp : p.Renamed sim R p') : Agree sim R (p.exec answer) (p'.exec answer') := by
  induction hp with
  | done hS hv hm => exact .some hS hv hm
  | @ask R S t t' m m' next next' hS ht hm _ ih =>
    simp only [Plan.exec]
    have hagree := h ht hm
    generalize answer t m = o, answer' t' m' = o' at hagree
    cases hagree with
    | none => exact .none
    | some hT hv hn => exact (ih hT hv hn).of_le (Renaming.le_trans hS hT)

/-! ## The plans of corresponding tasks -/

section
variable {m m' : Machine}

theorem renamed_ask_done {t t' : Task} (ht : t.Renamed R t') (hm : sim.Corresponds R m m') :
    (Plan.ask t m .done).Renamed sim R (.ask t' m' .done) :=
  .ask R.le_refl ht hm fun _ hv hn => .done (Renaming.le_refl _) hv hn

theorem renamed_operand {t t' : Task} {next next' : Value → Machine → Plan} (ht : t.Renamed R t')
    (hm : sim.Corresponds R m m')
    (hnext : ∀ {T v v' n n'}, R ≤ T → v.Renamed T v' → sim.Corresponds T n n' →
      (next v n).Renamed sim T (next' v' n')) :
    (Plan.operand t m next).Renamed sim R (Plan.operand t' m' next') := by
  refine .ask R.le_refl ht hm fun {T v v' n n'} hT hv hn => ?_
  show Plan.Renamed sim T (if v.isError then .done v n else next v n)
    (if v'.isError then .done v' n' else next' v' n')
  rw [hv.isError_eq]
  split
  · exact .done T.le_refl hv hn
  · exact hnext hT hv hn

theorem renamed_operands {s s' : ScopeId} : ∀ {es : List Expr} {R : Renaming} {m m' : Machine}
    {next next' : List Value → Machine → Plan}, R.scope s s' → sim.Corresponds R m m' →
    (∀ {T vs vs' n n'}, R ≤ T → List.Forall₂ (Value.Renamed T) vs vs' → sim.Corresponds T n n' →
      (next vs n).Renamed sim T (next' vs' n')) →
    (Plan.operands s es m next).Renamed sim R (Plan.operands s' es m' next') := by
  intro es
  induction es with
  | nil => exact fun hs hm hnext => hnext (Renaming.le_refl _) .nil hm
  | cons e es ih =>
    intro R m m' next next' hs hm hnext
    refine renamed_operand (.expr e hs) hm fun hT hv hn => ?_
    refine ih (hT.1 _ _ hs) hn fun hU hvs hn' => ?_
    exact hnext (Renaming.le_trans hT hU) (.cons (hv.mono hU) hvs) hn'

theorem renamed_checking {next next' : Machine → Plan} (hm : sim.Corresponds R m m')
    (hnext : sim.Corresponds R m.checked m'.checked →
      (next m.checked).Renamed sim R (next' m'.checked)) :
    (Plan.checking limits m next).Renamed sim R (Plan.checking limits m' next') := by
  simp only [Plan.checking, sim.answer hm]
  split
  · exact .done R.le_refl (.error _) (sim.checked hm)
  · exact hnext (sim.checked hm)

theorem renamed_expr {s s' : ScopeId} (hs : R.scope s s') (hm : sim.Corresponds R m m') (e : Expr) :
    (Task.planExpr s m e).Renamed sim R (Task.planExpr s' m' e) := by
  cases e with
  | missing => exact .done R.le_refl .null hm
  | ident x => exact .done R.le_refl (sim.name x.name hm hs) hm
  | int _ n => exact .done R.le_refl (.int n) hm
  | bool _ b => exact .done R.le_refl (.bool b) hm
  | unary _ op e =>
    exact renamed_operand (.expr e hs) hm fun hT hv hn => .done (Renaming.le_refl _) (hv.unary op) hn
  | binary _ op l r =>
    refine renamed_operand (.expr l hs) hm fun hT hv hn => ?_
    refine renamed_operand (.expr r (hT.1 _ _ hs)) hn fun hU hw hn' => ?_
    exact .done (Renaming.le_refl _) ((hv.mono hU).binary hw op) hn'
  | ifThen _ c body =>
    refine renamed_operand (.expr c hs) hm fun hT hv hn => ?_
    rw [hv.isTruthy_eq]
    split
    · exact renamed_ask_done (.stmts _ (hT.1 _ _ hs) .absent) hn
    · exact .done (Renaming.le_refl _) .null hn
  | ifElse _ c body other =>
    refine renamed_operand (.expr c hs) hm fun hT hv hn => ?_
    rw [hv.isTruthy_eq]
    split
    · exact renamed_ask_done (.stmts _ (hT.1 _ _ hs) .absent) hn
    · exact renamed_ask_done (.stmts _ (hT.1 _ _ hs) .absent) hn
  | fn _ params body =>
    obtain ⟨S, hS, hi, hm'⟩ := sim.takeIdentity hm
    exact .done hS (.fn params body hi (hS.1 _ _ hs)) hm'
  | call _ callee args =>
    refine renamed_operand (.expr callee hs) hm fun hT hf hn => ?_
    refine renamed_operands (hT.1 _ _ hs) hn fun hU hvs hn' => ?_
    exact renamed_ask_done (.apply (hf.mono hU) hvs) hn'

theorem corresponds_bindAll {s s' : ScopeId} (hs : R.scope s s') : ∀ (xs : List Ident) {vs vs' : List Value}
    {m m' : Machine}, sim.Corresponds R m m' → List.Forall₂ (Value.Renamed R) vs vs' →
    sim.Corresponds R (m.bindAll s xs vs) (m'.bindAll s' xs vs') := by
  intro xs
  induction xs with
  | nil => exact fun hm _ => hm
  | cons x xs ih =>
    intro vs vs' m m' hm hvs
    cases hvs with
    | nil => exact hm
    | cons hv hvs => exact ih (sim.bind x.name hm hs hv) hvs

theorem corresponds_called {s s' : ScopeId} {args args' : List Value} (hs : R.scope s s')
    (hm : sim.Corresponds R m m') (hargs : List.Forall₂ (Value.Renamed R) args args')
    (params : List Ident) : ∃ S, R ≤ S ∧ S.scope (m.called s params args).1 (m'.called s' params args').1 ∧
      sim.Corresponds S (m.called s params args).2 (m'.called s' params args').2 := by
  obtain ⟨S, hS, hinner, hnew⟩ := sim.enclose (sim.enter args.length hm) hs
  have hbound := corresponds_bindAll hinner params hnew (hargs.imp fun _ _ hv => hv.mono hS)
  simp only [Machine.called, ← hargs.length_eq]
  exact ⟨S, hS, hinner, hbound⟩

theorem renamed_apply {f f' : Value} {args args' : List Value} (hf : f.Renamed R f')
    (hargs : List.Forall₂ (Value.Renamed R) args args') (hm : sim.Corresponds R m m') :
    (Task.planApply limits m args f).Renamed sim R (Task.planApply limits m' args' f') := by
  cases hf with
  | fn params body hi hs =>
    simp only [Task.planApply, hargs.length_eq]
    split
    · exact .done R.le_refl (.error _) hm
    · refine renamed_checking hm fun hm' => ?_
      rw [sim.depth hm']
      split
      · exact .done R.le_refl (.error _) hm'
      · obtain ⟨S, hS, hinner, hcalled⟩ := corresponds_called hs hm' hargs params
        refine .ask hS (.stmts _ hinner .absent) hcalled fun hT hv hn => ?_
        exact .done (Renaming.le_refl _) hv.opened (sim.leave hn)
  | _ => exact .done R.le_refl (.error _) hm

theorem renamed_stmt {s s' : ScopeId} (hs : R.scope s s') (hm : sim.Corresponds R m m') (st : Stmt) :
    (Task.planStmt s m st).Renamed sim R (Task.planStmt s' m' st) := by
  cases st with
  | bind _ x e =>
    refine renamed_operand (.expr e hs) hm fun hT hv hn => ?_
    exact .done (Renaming.le_refl _) .absent (sim.bind x.name hn (hT.1 _ _ hs) hv)
  | ret _ e =>
    refine renamed_operand (.expr e hs) hm fun hT hv hn => ?_
    obtain ⟨S, hS, hi, hn'⟩ := sim.takeIdentity hn
    exact .done hS (.returned hi (hv.mono hS)) hn'
  | expr _ e => exact renamed_ask_done (.expr e hs) hm
  | block b => exact renamed_ask_done (.stmts _ hs .absent) hm

theorem renamed_stmts {s s' : ScopeId} {last last' : Value} (hs : R.scope s s')
    (hlast : last.Renamed R last') (hm : sim.Corresponds R m m') (ss : List Stmt) :
    (Task.planStmts limits s m last ss).Renamed sim R (Task.planStmts limits s' m' last' ss) := by
  cases ss with
  | nil =>
    simp only [Task.planStmts, hlast.isPresent_eq]
    split
    · exact .done R.le_refl hlast hm
    · exact .done R.le_refl .null hm
  | cons st ss =>
    rw [Task.planStmts, Task.planStmts]
    refine renamed_checking hm fun hm' => ?_
    refine .ask R.le_refl (.stmt st hs) hm' fun {T v v' n n'} hT hv hn => ?_
    rw [hv.isReturned_eq, hv.isError_eq]
    split
    · exact .done T.le_refl hv hn
    · exact renamed_ask_done (.stmts ss (hT.1 _ _ hs) hv) hn

theorem renamed_program {s s' : ScopeId} {last last' : Value} (hs : R.scope s s')
    (hlast : last.Renamed R last') (hm : sim.Corresponds R m m') (ss : Program) :
    (Task.planProgram limits s m last ss).Renamed sim R (Task.planProgram limits s' m' last' ss) := by
  cases ss with
  | nil => exact .done R.le_refl hlast hm
  | cons st ss =>
    rw [Task.planProgram, Task.planProgram]
    refine renamed_checking hm fun hm' => ?_
    refine .ask R.le_refl (.stmt st hs) hm' fun {T v v' n n'} hT hv hn => ?_
    have hrest := renamed_ask_done (.program ss (hT.1 _ _ hs) hv) hn
    cases hv with
    | returned _ hw => exact .done T.le_refl hw hn
    | error fault => exact .done T.le_refl (.error fault) (sim.failed fault hn)
    | _ => exact hrest

end

/-- **Corresponding tasks have plans that go on in step.** -/
theorem Simulation.plan {t t' : Task} {m m' : Machine} (ht : t.Renamed R t') (hm : sim.Corresponds R m m') :
    (t.plan limits m).Renamed sim R (t'.plan limits m') := by
  cases ht with
  | expr e hs => exact renamed_expr hs hm e
  | apply hf hargs => exact renamed_apply hf hargs hm
  | stmt st hs => exact renamed_stmt hs hm st
  | stmts ss hs hlast => exact renamed_stmts hs hlast hm ss
  | program ss hs hlast => exact renamed_program hs hlast hm ss

/-- **Corresponding runs agree**, and they even need the same fuel. -/
theorem Simulation.run (fuel : Nat) {R : Renaming} {t t' : Task} {m m' : Machine} (ht : t.Renamed R t')
    (hm : sim.Corresponds R m m') : Agree sim R (t.run limits fuel m) (t'.run limits fuel m') := by
  induction fuel generalizing R t t' m m' with
  | zero =>
    rw [Task.run_zero, Task.run_zero]
    exact .none
  | succ fuel ih =>
    rw [Task.run_succ, Task.run_succ]
    exact (Simulation.plan ht hm).exec ih

/-- Either run ends if the other does. -/
theorem Simulation.ends_iff {t t' : Task} {m m' : Machine} (ht : t.Renamed R t') (hm : sim.Corresponds R m m') :
    (∀ fuel, t.run limits fuel m = none ∧ t'.run limits fuel m' = none) ∨
    ∃ (v v' : Value) (n n' : Machine) (S : Renaming), R ≤ S ∧ v.Renamed S v' ∧ sim.Corresponds S n n' ∧
      ∃ enough, ∀ fuel ≥ enough, t.run limits fuel m = some (v, n) ∧ t'.run limits fuel m' = some (v', n') := by
  by_cases hends : ∃ fuel v n, t.run limits fuel m = some (v, n)
  · obtain ⟨fuel, v, n, hv⟩ := hends
    have hagree := Simulation.run fuel ht hm
    generalize hv' : t'.run limits fuel m' = o' at hagree
    rw [hv] at hagree
    cases hagree with
    | @some S _ v' _ n' hS hval hn =>
      obtain ⟨f₁, h₁⟩ := run_of_resolves (resolves_of_run hv)
      obtain ⟨f₂, h₂⟩ := run_of_resolves (resolves_of_run hv')
      refine .inr ⟨v, v', n, n', S, hS, hval, hn, max f₁ f₂, fun fuel hfuel => ?_⟩
      exact ⟨h₁ fuel (Nat.le_trans (Nat.le_max_left _ _) hfuel), h₂ fuel (Nat.le_trans (Nat.le_max_right _ _) hfuel)⟩
  · refine .inl fun fuel => ?_
    have hnone : t.run limits fuel m = none :=
      Option.eq_none_iff_forall_ne_some.mpr fun r hr => hends ⟨fuel, r.1, r.2, hr⟩
    have hagree := Simulation.run fuel ht hm
    generalize t'.run limits fuel m' = o' at hagree ⊢
    rw [hnone] at hagree
    cases hagree
    exact ⟨hnone, rfl⟩

end

end Eval

end LetLang
