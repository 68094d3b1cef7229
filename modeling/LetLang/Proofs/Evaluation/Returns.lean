import LetLang.Proofs.Evaluation.Runs
import LetLang.Proofs.Store

/-!
# Where returned values go

A `return` yields a marked value, which is meant for the call or the program that it ends. The mark is a value like
any other, and a conditional is an expression: if a branch of it returns, the conditional yields the marked value,
and whoever computes with the conditional computes with the mark. Then a name can be bound to it, an operator can
meet it, a function can be called with it, and a second `return` can wrap it once more.

This file says what it means that none of this happens in a run (`Contained`), and that **conditionals are the only
way out**: as long as no conditional that something computes with yields a returned value, nothing ever computes
with one. The argument follows the mark from where it is made. Names and calls never yield it, because it is not in
the store and a call opens it; operators make new values; so an expression that yields it is a conditional.
-/

set_option autoImplicit false

namespace LetLang

/-- Whether an expression is a conditional. -/
def Expr.isConditional : Expr → Bool
  | .ifThen _ _ _ => true
  | .ifElse _ _ _ _ => true
  | _ => false

/-! ## Values in the store -/

namespace Store

variable {P : Value → Prop} {s : Store}

/-- Every value that a name has in some scope satisfies `P`. -/
def All (P : Value → Prop) (s : Store) : Prop :=
  ∀ (i : Nat) (f : Frame), s.frames[i]? = some f → ∀ b ∈ f.bindings, P b.2

theorem All.get? (h : s.All P) {scope : ScopeId} {x : String} {v : Value} (hv : s.get? scope x = some v) : P v := by
  obtain ⟨t, ht⟩ := exists_own?_of_get? hv
  obtain ⟨f, hf, hget⟩ := Option.bind_eq_some_iff.mp ht
  obtain ⟨l₁, l₂, hb, -⟩ := List.lookup_eq_some_iff.mp hget
  exact h t f hf (x, v) (by simp [hb])

theorem All.set (h : s.All P) {v : Value} (hv : P v) (scope : ScopeId) (x : String) :
    (s.set scope x v).All P := by
  intro i f hf b hb
  simp only [Store.set, Array.getElem?_modify] at hf
  split at hf
  · obtain ⟨g, hg, rfl⟩ := Option.map_eq_some_iff.mp hf
    rcases List.mem_cons.mp hb with rfl | hb
    · exact hv
    · exact h i g hg b (List.mem_filter.mp hb).1
  · exact h i f hf b hb

theorem All.enclose (h : s.All P) (outer : ScopeId) : (s.enclose outer).2.All P := by
  intro i f hf b hb
  simp only [Store.enclose, Array.getElem?_push] at hf
  split at hf
  · obtain rfl := Option.some.inj hf
    exact absurd hb (by simp)
  · exact h i f hf b hb

theorem all_newScope : (({} : Store).newScope).2.All P := by
  intro i f hf b hb
  simp only [Store.newScope, Array.getElem?_push] at hf
  split at hf
  · obtain rfl := Option.some.inj hf
    exact absurd hb (by simp)
  · exact absurd hf (by simp)

end Store

/-- Giving parameters their values keeps what holds of all values, if it holds of the arguments. -/
theorem Machine.bindAll_all {P : Value → Prop} (scope : ScopeId) : ∀ (xs : List Ident)
    (vs : List Value) (m : Machine), m.store.All P → (∀ v ∈ vs, P v) →
      (m.bindAll scope xs vs).store.All P := by
  intro xs
  induction xs with
  | nil => exact fun vs m h _ => h
  | cons x xs ih =>
    intro vs m h hvs
    cases vs with
    | nil => exact h
    | cons v vs =>
      refine ih vs (m.bind scope x.name v) ?_ fun w hw => hvs w (List.mem_cons_of_mem _ hw)
      exact h.set (hvs v List.mem_cons_self) scope x.name

theorem Machine.called_all {P : Value → Prop} {m : Machine} {args : List Value}
    (h : m.store.All P) (hargs : ∀ v ∈ args, P v) (outer : ScopeId) (params : List Ident) :
    (m.called outer params args).2.store.All P :=
  Machine.bindAll_all _ params args _ (h.enclose outer) hargs

/-! ## What is computed with -/

/-- A value that is not on its way out. -/
def Value.Plain (v : Value) : Prop := v.isReturned = false

/-- A value that is marked at most once. -/
def Value.Single (v : Value) : Prop := ∀ i w, v = .returned i w → w.Plain

theorem Value.Plain.single {v : Value} (h : v.Plain) : v.Single := by
  rintro i w rfl
  exact absurd h (by simp [Value.Plain, Value.isReturned])

/-- A value that no other value is part of: neither a function nor on its way out. -/
def Value.IsData : Value → Prop
  | .returned _ _ => False
  | .fn _ _ _ _ => False
  | _ => True

theorem Value.IsData.plain {v : Value} (h : v.IsData) : v.Plain := by
  cases v with
  | returned i w => exact h.elim
  | _ => rfl

theorem Value.isData_of_isError {v : Value} (h : v.isError = true) : v.IsData := by
  cases v with
  | error fault => trivial
  | _ => exact absurd h (by simp [Value.isError])

theorem Value.Single.opened {v : Value} (h : v.Single) : v.opened.Plain := by
  cases v with
  | returned i w => exact h i w rfl
  | _ => rfl

/-- Operators make new values. -/
theorem Value.isData_unary (op : String) (v : Value) : (v.unary op).IsData := by
  unfold Value.unary
  split <;> trivial

theorem Value.isData_arith (op : String) (a b : Int64) : (Value.arith op a b).IsData := by
  unfold Value.arith
  repeat' split
  all_goals trivial

theorem Value.isData_binary (op : String) (l r : Value) : (l.binary op r).IsData := by
  unfold Value.binary
  split
  · exact Value.isData_arith op _ _
  · repeat' split
    all_goals trivial

namespace Eval

/-- The task, started on `m`, computes with the value `v` of its part `e`: an operator is applied to it, it
decides a condition, it is called or an argument of a call, it is bound to a name, or it is returned. Where
several values are needed, this is so only if none of them is an error. -/
inductive Uses (limits : Limits) : Task → Machine → Expr → Value → Prop where
  -- Operators
  | unary {s : ScopeId} {t : Token} {op : String} {e : Expr} {m m' : Machine} {v : Value} :
      Yields limits (.expr s e) m v m' → v.isError = false →
      Uses limits (.expr s (.unary t op e)) m e v
  | left {s : ScopeId} {t : Token} {op : String} {l r : Expr} {m m₁ m₂ : Machine} {v w : Value} :
      Yields limits (.expr s l) m v m₁ → v.isError = false → Yields limits (.expr s r) m₁ w m₂ →
      w.isError = false → Uses limits (.expr s (.binary t op l r)) m l v
  | right {s : ScopeId} {t : Token} {op : String} {l r : Expr} {m m₁ m₂ : Machine} {v w : Value} :
      Yields limits (.expr s l) m v m₁ → v.isError = false → Yields limits (.expr s r) m₁ w m₂ →
      w.isError = false → Uses limits (.expr s (.binary t op l r)) m r w
  -- Conditions
  | conditionThen {s : ScopeId} {t : Token} {c : Expr} {b : Block} {m m' : Machine} {v : Value} :
      Yields limits (.expr s c) m v m' → v.isError = false →
      Uses limits (.expr s (.ifThen t c b)) m c v
  | conditionElse {s : ScopeId} {t : Token} {c : Expr} {b b' : Block} {m m' : Machine} {v : Value} :
      Yields limits (.expr s c) m v m' → v.isError = false →
      Uses limits (.expr s (.ifElse t c b b')) m c v
  -- Calls
  | callee {s : ScopeId} {t : Token} {f : Expr} {es : List Expr} {m m₁ m₂ : Machine} {v : Value}
      {vs : List Value} : Yields limits (.expr s f) m v m₁ → v.isError = false →
      YieldsAll limits s es m₁ vs m₂ → Uses limits (.expr s (.call t f es)) m f v
  | argument {s : ScopeId} {t : Token} {f : Expr} {es : List Expr} {m m₁ m₂ : Machine} {v : Value}
      {vs : List Value} {x : Expr × Value} : Yields limits (.expr s f) m v m₁ → v.isError = false →
      YieldsAll limits s es m₁ vs m₂ → x ∈ es.zip vs →
      Uses limits (.expr s (.call t f es)) m x.1 x.2
  -- Statements
  | bound {s : ScopeId} {t : Token} {x : Ident} {e : Expr} {m m' : Machine} {v : Value} :
      Yields limits (.expr s e) m v m' → v.isError = false →
      Uses limits (.stmt s (.bind t x e)) m e v
  | returned {s : ScopeId} {t : Token} {e : Expr} {m m' : Machine} {v : Value} :
      Yields limits (.expr s e) m v m' → v.isError = false → Uses limits (.stmt s (.ret t e)) m e v

/-- In the run of `root` from `m₀` a returned value is never an ordinary one. -/
structure Contained (limits : Limits) (root : Task) (m₀ : Machine) : Prop where
  /-- No name is bound to a returned value, when a task starts ... -/
  store : ∀ {t m}, Reaches limits root m₀ t m → m.store.All Value.Plain
  /-- ... and when it ends. -/
  storeAfter : ∀ {t m v m'}, Reaches limits root m₀ t m → Yields limits t m v m' →
    m'.store.All Value.Plain
  /-- None is computed with. -/
  used : ∀ {t m e v}, Reaches limits root m₀ t m → Uses limits t m e v → v.Plain
  /-- None is called, and none is an argument of a call. -/
  applied : ∀ {f args m}, Reaches limits root m₀ (.apply f args) m →
    f.Plain ∧ ∀ v ∈ args, v.Plain
  /-- None wraps another. -/
  single : ∀ {t m v m'}, Reaches limits root m₀ t m → Yields limits t m v m' → v.Single
  /-- None is the value of a call ... -/
  called : ∀ {f args m v m'}, Reaches limits root m₀ (.apply f args) m →
    Yields limits (.apply f args) m v m' → v.Plain
  /-- ... or of a program. -/
  program : ∀ {s ss last m v m'}, Reaches limits root m₀ (.program s ss last) m →
    Yields limits (.program s ss last) m v m' → v.Plain

section
variable {limits : Limits}

theorem operand_of_not_isError {t : Task} {m m₁ : Machine} {next : Value → Machine → Plan} {v : Value}
    (hy : Yields limits t m v m₁) (hv : v.isError = false) {t' : Task} {m' : Machine}
    (h : Asks limits (next v m₁) t' m') : Asks limits (Plan.operand t m next) t' m' :=
  .later hy (by simpa [hv] using h)

theorem YieldsAll.asks {s : ScopeId} {es : List Expr} {vs : List Value} {m m' : Machine}
    (h : YieldsAll limits s es m vs m') : ∀ (next : List Value → Machine → Plan), ∀ x ∈ es.zip vs,
      ∃ m₁ m₂, Asks limits (Plan.operands s es m next) (.expr s x.1) m₁ ∧
        Yields limits (.expr s x.1) m₁ x.2 m₂ := by
  induction h with
  | nil => exact fun _ x hx => absurd hx (by simp)
  | @cons e es v vs m m₁ m' hy hv _ ih =>
    intro next x hx
    rcases List.mem_cons.mp hx with rfl | hx
    · exact ⟨m, m₁, .now, hy⟩
    · obtain ⟨m₂, m₃, ha, hy'⟩ := ih (fun vs m => next (v :: vs) m) x hx
      exact ⟨m₂, m₃, operand_of_not_isError hy hv ha, hy'⟩

/-- What a task computes with, it has asked for. -/
theorem Uses.asks {t : Task} {m : Machine} {e : Expr} {v : Value} (h : Uses limits t m e v) :
    ∃ s m₁ m₂, Asks limits (t.plan limits m) (.expr s e) m₁ ∧ Yields limits (.expr s e) m₁ v m₂ := by
  cases h with
  | unary hy | left hy | conditionThen hy | conditionElse hy | callee hy | bound hy | returned hy =>
    exact ⟨_, _, _, .now, hy⟩
  | right hy hv hy' => exact ⟨_, _, _, operand_of_not_isError hy hv .now, hy'⟩
  | argument hy hv hys hx =>
    obtain ⟨m₁, m₂, ha, hy'⟩ := hys.asks _ _ hx
    exact ⟨_, m₁, m₂, operand_of_not_isError hy hv ha, hy'⟩

theorem YieldsAll.exists_zip {s : ScopeId} {es : List Expr} {vs : List Value} {m m' : Machine}
    (h : YieldsAll limits s es m vs m') : ∀ v ∈ vs, ∃ e, (e, v) ∈ es.zip vs := by
  induction h with
  | nil => exact fun v hv => absurd hv (by simp)
  | @cons e es v vs m m₁ m' _ _ _ ih =>
    intro w hw
    rcases List.mem_cons.mp hw with rfl | hw
    · exact ⟨e, List.mem_cons_self⟩
    · obtain ⟨e', he⟩ := ih w hw
      exact ⟨e', List.mem_cons_of_mem _ he⟩

/-! ## Conditionals are the only way out -/

/-- What is handed to a task is plain. The value before the rest of a block may be anything that is not marked
twice. -/
def Task.Fed : Task → Prop
  | .apply f args => f.Plain ∧ ∀ v ∈ args, v.Plain
  | .stmts _ _ last => last.Single
  | .program _ _ last => last.Plain
  | _ => True

/-- Calls and programs yield plain values, and so do all expressions but conditionals. -/
def Task.Gives (v : Value) : Task → Prop
  | .expr _ e => v.isReturned = true → e.isConditional = true
  | .apply _ _ => v.Plain
  | .program _ _ _ => v.Plain
  | _ => True

/-- The invariant of a run in which no conditional lets a returned value out. -/
def returnSpec : Spec where
  pre t m := m.store.All Value.Plain ∧ t.Fed
  post t _ v m' := m'.store.All Value.Plain ∧ v.Single ∧ t.Gives v

theorem post_of_plain {t : Task} {m m' : Machine} {v : Value} (hs : m'.store.All Value.Plain)
    (hv : v.Plain) : returnSpec.post t m v m' := by
  refine ⟨hs, hv.single, ?_⟩
  cases t with
  | expr s e => exact fun h => absurd h (by rw [hv]; simp)
  | apply f args | program s ss last => exact hv
  | stmt s st | stmts s ss last => trivial

theorem post_of_isError {t t' : Task} {m m₁ m' : Machine} {v : Value}
    (h : returnSpec.post t' m₁ v m') (hv : v.isError = true) : returnSpec.post t m v m' :=
  post_of_plain h.1 (Value.isData_of_isError hv).plain

section
variable {root : Task} {m₀ : Machine}

/-- No conditional that something computes with yields a returned value. -/
def NoEscape (limits : Limits) (root : Task) (m₀ : Machine) : Prop :=
  ∀ t m, Reaches limits root m₀ t m → ∀ e v, Uses limits t m e v → e.isConditional = true → v.Plain

variable (hno : NoEscape limits root m₀)
include hno

theorem plain_of_uses {t : Task} {m : Machine} {e : Expr} {v : Value}
    (hr : Reaches limits root m₀ t m) (hu : Uses limits t m e v)
    (hv : v.isReturned = true → e.isConditional = true) : v.Plain := by
  cases hret : v.isReturned with
  | false => exact hret
  | true => exact absurd (hno t m hr e v hu (hv hret)) (by simp [Value.Plain, hret])

theorem meets_return_expr {scope : ScopeId} {e : Expr} {m : Machine}
    (hr : Reaches limits root m₀ (.expr scope e) m) (hs : m.store.All Value.Plain) :
    (Task.planExpr scope m e).Meets limits returnSpec (returnSpec.post (.expr scope e) m) := by
  cases e with
  | missing | int _ _ | bool _ _ | fn _ _ _ => exact post_of_plain hs rfl
  | ident x =>
    -- the value comes from the store, where none is marked
    refine post_of_plain hs ?_
    cases hx : m.store.get? scope x.name with
    | none => rfl
    | some v => exact hs.get? hx
  | unary t op e =>
    refine meets_operand ⟨hs, trivial⟩ (fun v m' _ hp hv => post_of_isError hp hv) ?_
    exact fun v m' _ hp _ => post_of_plain hp.1 (Value.isData_unary op v).plain
  | binary t op l r =>
    refine meets_operand ⟨hs, trivial⟩ (fun v m' _ hp hv => post_of_isError hp hv) ?_
    intro v m₁ _ hp _
    refine meets_operand ⟨hp.1, trivial⟩ (fun w m' _ hp' hw => post_of_isError hp' hw) ?_
    exact fun w m₂ _ hp' _ => post_of_plain hp'.1 (Value.isData_binary op v w).plain
  | ifThen t c body =>
    refine meets_operand ⟨hs, trivial⟩ (fun v m' _ hp hv => post_of_isError hp hv) ?_
    intro v m₁ _ hp _
    split
    · exact ⟨⟨hp.1, Value.Plain.single rfl⟩, fun w m' _ hp' => ⟨hp'.1, hp'.2.1, fun _ => rfl⟩⟩
    · exact post_of_plain hp.1 rfl
  | ifElse t c body other =>
    refine meets_operand ⟨hs, trivial⟩ (fun v m' _ hp hv => post_of_isError hp hv) ?_
    intro v m₁ _ hp _
    split
    · exact ⟨⟨hp.1, Value.Plain.single rfl⟩, fun w m' _ hp' => ⟨hp'.1, hp'.2.1, fun _ => rfl⟩⟩
    · exact ⟨⟨hp.1, Value.Plain.single rfl⟩, fun w m' _ hp' => ⟨hp'.1, hp'.2.1, fun _ => rfl⟩⟩
  | call t f args =>
    refine meets_operand ⟨hs, trivial⟩ (fun v m' _ hp hv => post_of_isError hp hv) ?_
    intro v m₁ hy hp hv
    refine meets_operands (I := fun m => m.store.All Value.Plain)
      (P := fun e v => v.isReturned = true → e.isConditional = true) (fun _ _ _ h => ⟨h, trivial⟩)
      (fun _ _ _ _ _ _ hp => ⟨hp.1, hp.2.2⟩) hp.1 (fun w m' h hw => ?_) fun vs m₂ hys h hvs => ?_
    · exact post_of_plain h (Value.isData_of_isError hw).plain
    · -- the values are all there, so the call computes with each of them
      have hf : v.Plain := plain_of_uses hno hr (.callee hy hv hys) hp.2.2
      have hargs : ∀ w ∈ vs, w.Plain := by
        intro w hw
        obtain ⟨e, he⟩ := hys.exists_zip w hw
        exact plain_of_uses hno hr (.argument hy hv hys he) (hvs _ he)
      exact ⟨⟨h, hf, hargs⟩, fun w m' _ hp' => post_of_plain hp'.1 hp'.2.2⟩

omit hno in
theorem meets_return_apply {f : Value} {args : List Value} {m : Machine}
    (hs : m.store.All Value.Plain) (hargs : ∀ v ∈ args, v.Plain) :
    (Task.planApply limits m args f).Meets limits returnSpec (returnSpec.post (.apply f args) m) := by
  cases f with
  | fn id params body scope =>
    simp only [Task.planApply]
    split
    · exact post_of_plain hs rfl
    · refine meets_checking (fun why _ => post_of_plain hs rfl) fun _ => ?_
      split
      · exact post_of_plain hs rfl
      · have hcalled := Machine.called_all (m := m.checked) hs hargs scope params
        exact ⟨⟨hcalled, Value.Plain.single rfl⟩,
          fun v m' _ hp => post_of_plain hp.1 hp.2.1.opened⟩
  | _ => exact post_of_plain hs rfl

theorem meets_return_stmt {scope : ScopeId} {s : Stmt} {m : Machine}
    (hr : Reaches limits root m₀ (.stmt scope s) m) (hs : m.store.All Value.Plain) :
    (Task.planStmt scope m s).Meets limits returnSpec (returnSpec.post (.stmt scope s) m) := by
  cases s with
  | bind t x e =>
    refine meets_operand ⟨hs, trivial⟩ (fun v m' _ hp hv => post_of_isError hp hv) ?_
    intro v m' hy hp hv
    have hplain : v.Plain := plain_of_uses hno hr (.bound hy hv) hp.2.2
    exact post_of_plain (hp.1.set hplain scope x.name) rfl
  | ret t e =>
    refine meets_operand ⟨hs, trivial⟩ (fun v m' _ hp hv => post_of_isError hp hv) ?_
    intro v m' hy hp hv
    -- this is where marks are made, on a value that has none
    have hplain : v.Plain := plain_of_uses hno hr (.returned hy hv) hp.2.2
    refine ⟨hp.1, ?_, trivial⟩
    rintro i w heq
    obtain ⟨-, rfl⟩ := Value.returned.inj heq
    exact hplain
  | expr t e => exact ⟨⟨hs, trivial⟩, fun v m' _ hp => ⟨hp.1, hp.2.1, trivial⟩⟩
  | block b => exact ⟨⟨hs, Value.Plain.single rfl⟩, fun v m' _ hp => ⟨hp.1, hp.2.1, trivial⟩⟩

omit hno in
theorem meets_return_stmts {scope : ScopeId} {ss : List Stmt} {last : Value} {m : Machine}
    (hs : m.store.All Value.Plain) (hlast : last.Single) :
    (Task.planStmts limits scope m last ss).Meets limits returnSpec
      (returnSpec.post (.stmts scope ss last) m) := by
  cases ss with
  | nil =>
    simp only [Task.planStmts]
    split
    · exact ⟨hs, hlast, trivial⟩
    · exact post_of_plain hs rfl
  | cons s ss =>
    rw [Task.planStmts]
    refine meets_checking (fun why _ => post_of_plain hs rfl) fun _ => ?_
    refine ⟨⟨hs, trivial⟩, fun v m' _ hp => ?_⟩
    dsimp only
    split
    · exact ⟨hp.1, hp.2.1, trivial⟩
    · exact ⟨⟨hp.1, hp.2.1⟩, fun w m₂ _ hp' => ⟨hp'.1, hp'.2.1, trivial⟩⟩

omit hno in
theorem meets_return_program {scope : ScopeId} {ss : Program} {last : Value} {m : Machine}
    (hs : m.store.All Value.Plain) (hlast : last.Plain) :
    (Task.planProgram limits scope m last ss).Meets limits returnSpec
      (returnSpec.post (.program scope ss last) m) := by
  cases ss with
  | nil => exact post_of_plain hs hlast
  | cons s ss =>
    rw [Task.planProgram]
    refine meets_checking (fun why _ => post_of_plain hs rfl) fun _ => ?_
    refine ⟨⟨hs, trivial⟩, fun v m' _ hp => ?_⟩
    cases v with
    | returned i w => exact post_of_plain hp.1 (hp.2.1 i w rfl)
    | error fault => exact post_of_plain hp.1 rfl
    | _ => exact ⟨⟨hp.1, rfl⟩, fun w m₂ _ hp' => post_of_plain hp'.1 hp'.2.2⟩

theorem meets_return {t : Task} {m : Machine} (hr : Reaches limits root m₀ t m)
    (hpre : returnSpec.pre t m) :
    (t.plan limits m).Meets limits returnSpec (returnSpec.post t m) := by
  cases t with
  | expr scope e => exact meets_return_expr hno hr hpre.1
  | apply f args => exact meets_return_apply hpre.1 hpre.2.2
  | stmt scope s => exact meets_return_stmt hno hr hpre.1
  | stmts scope ss last => exact meets_return_stmts hpre.1 hpre.2
  | program scope ss last => exact meets_return_program hpre.1 hpre.2

/-- **Conditionals are the only way out** for a returned value. -/
theorem contained_of_noEscape (hroot : returnSpec.pre root m₀) : Contained limits root m₀ := by
  have holds {t : Task} {m : Machine} (hr : Reaches limits root m₀ t m) :=
    Spec.holds hroot (fun t m hr hpre => meets_return hno hr hpre) hr
  refine ⟨fun hr => (holds hr).1.1, fun hr hy => ((holds hr).2 _ _ hy).1, ?_,
    fun hr => (holds hr).1.2, fun hr hy => ((holds hr).2 _ _ hy).2.1,
    fun hr hy => ((holds hr).2 _ _ hy).2.2, fun hr hy => ((holds hr).2 _ _ hy).2.2⟩
  intro t m e v hr hu
  obtain ⟨s, m₁, m₂, ha, hy⟩ := hu.asks
  exact plain_of_uses hno hr hu ((holds (hr.step ha)).2 v m₂ hy).2.2

end

end

end Eval

end LetLang
