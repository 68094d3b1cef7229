import LetLang.Store

/-!
# Scopes over time

A scope that is there stays there, and other scopes are added around it and inside it as long as a run goes on. So what a
name means is not a matter of one table. A name that is set in a scope is seen from all scopes inside that one, those that
are there already and those that come later, unless one of them that is nearer has the name itself.

Here this is said of any sequence of operations on scopes, newest first as in a trace (`Store.Past`). Three things can be
read off the sequence without a store: the scope around a scope, the chain of scopes that leads outward from it, and the
value that was set last for a name in a scope. Together they determine every answer that the store gives
(`Store.Past.nearestEnclosing`).

The first half is about one operation: what a scope holds itself (`Store.own?`), and where a search goes on (`Store.next?`).
-/

set_option autoImplicit false

namespace LetLang

/-! ## One scope -/

theorem lookup_filter_of_ne {x y : String} (h : y ≠ x) (bs : List (String × Value)) :
    (bs.filter fun b => b.1 != x).lookup y = bs.lookup y := by
  induction bs with
  | nil => rfl
  | cons b bs ih =>
    obtain ⟨z, w⟩ := b
    by_cases hz : z = x
    · subst hz
      simp [List.lookup_cons, beq_false_of_ne h, ih]
    · simp [List.lookup_cons, hz, ih]

theorem Frame.get?_set_self (f : Frame) (x : String) (v : Value) : (f.set x v).get? x = some v := by
  simp [Frame.get?, Frame.set]

theorem Frame.get?_set_of_ne (f : Frame) {x y : String} (v : Value) (h : y ≠ x) :
    (f.set x v).get? y = f.get? y := by
  simp [Frame.get?, Frame.set, List.lookup_cons, beq_false_of_ne h, lookup_filter_of_ne h]

/-! ## The store and its scopes -/

namespace Store

variable {s : Store} {scope : ScopeId}

/-- The value a name has in a scope itself. -/
def own? (s : Store) (scope : ScopeId) (x : String) : Option Value :=
  (s.frames[scope]?).bind fun f => f.get? x

/-- The scope in which the search for a name goes on. -/
def next? (s : Store) (scope : ScopeId) : Option ScopeId :=
  (s.outer? scope).filter fun o => o < scope

theorem lt_of_next? {o : ScopeId} (h : s.next? scope = some o) : o < scope := by
  simpa using (Option.filter_eq_some_iff.mp h).2

/-- A search looks in the scope itself and then goes on. -/
theorem get?_eq (s : Store) (scope : ScopeId) (x : String) :
    s.get? scope x = (s.own? scope x).or ((s.next? scope).bind fun o => s.get? o x) := by
  rw [Store.get?, own?, next?, outer?]
  cases hf : s.frames[scope]? with
  | none => rfl
  | some f =>
    simp only [Option.bind_some]
    cases f.get? x with
    | some v => rfl
    | none =>
      cases f.outer with
      | none => rfl
      | some o =>
        simp only [Option.filter, Option.none_or]
        by_cases ho : o < scope <;> simp [ho]

/-- What a search finds is held by some scope. -/
theorem exists_own?_of_get? {x : String} {v : Value} (h : s.get? scope x = some v) : ∃ t, s.own? t x = some v := by
  induction scope using Nat.strongRecOn with
  | ind scope ih =>
    rw [get?_eq, Option.or_eq_some_iff] at h
    rcases h with hown | ⟨-, houtside⟩
    · exact ⟨scope, hown⟩
    · obtain ⟨o, ho, hget⟩ := Option.bind_eq_some_iff.mp houtside
      exact ih o (lt_of_next? ho) hget

theorem own?_eq_of_frames {s' : Store} (h : s'.frames[scope]? = s.frames[scope]?) (x : String) :
    s'.own? scope x = s.own? scope x := by
  simp only [own?, h]

theorem next?_eq_of_frames {s' : Store} (h : s'.frames[scope]? = s.frames[scope]?) :
    s'.next? scope = s.next? scope := by
  simp only [next?, outer?, h]

theorem size_set (s : Store) (scope : ScopeId) (x : String) (v : Value) :
    (s.set scope x v).frames.size = s.frames.size := by
  simp [Store.set]

theorem outer?_set (s : Store) (scope t : ScopeId) (x : String) (v : Value) :
    (s.set scope x v).outer? t = s.outer? t := by
  simp only [outer?, Store.set, Array.getElem?_modify]
  split
  · cases s.frames[t]? <;> rfl
  · rfl

theorem next?_set (s : Store) (scope t : ScopeId) (x : String) (v : Value) :
    (s.set scope x v).next? t = s.next? t := by
  simp only [next?, outer?_set]

theorem own?_set_self (h : scope < s.frames.size) (x : String) (v : Value) :
    (s.set scope x v).own? scope x = some v := by
  simp only [own?, Store.set, Array.getElem?_modify, if_true, Array.getElem?_eq_getElem h, Option.map_some,
    Option.bind_some, Frame.get?_set_self]

theorem own?_set_of_ne {t : ScopeId} {x y : String} (h : ¬ (t = scope ∧ y = x)) (v : Value) :
    (s.set scope x v).own? t y = s.own? t y := by
  simp only [own?, Store.set, Array.getElem?_modify]
  split
  · next ht =>
    have hy : y ≠ x := fun hy => h ⟨ht.symm, hy⟩
    cases s.frames[t]? with
    | none => rfl
    | some f => exact Frame.get?_set_of_ne f v hy
  · rfl

theorem own?_enclose (s : Store) (outer : ScopeId) (x : String) :
    (s.enclose outer).2.own? (s.enclose outer).1 x = none := by
  simp [own?, Store.enclose, Frame.get?]

theorem next?_enclose (h : scope < s.frames.size) :
    (s.enclose scope).2.next? (s.enclose scope).1 = some scope := by
  simp [next?, outer?, Store.enclose, h]

/-- A scope that is added has the scope around it that it was made with, and changes none of the others. -/
theorem outer?_push (s : Store) (f : Frame) (t : ScopeId) :
    Store.outer? ⟨s.frames.push f⟩ t = if t = s.frames.size then f.outer else s.outer? t := by
  simp only [outer?, Array.getElem?_push]
  split <;> rfl

/-- A scope that is added empty gives no name a value. -/
theorem own?_push (s : Store) (outer : Option ScopeId) (t : ScopeId) (x : String) :
    Store.own? ⟨s.frames.push { outer }⟩ t x = s.own? t x := by
  simp only [own?, Array.getElem?_push]
  split
  · next ht =>
    subst ht
    simp [Frame.get?]
  · rfl

/-! ## Sequences of operations -/

/-- What can be done with scopes. -/
inductive Op where
  | new
  | enclose (outer : ScopeId)
  | set (scope : ScopeId) (name : String) (v : Value)
  | get (scope : ScopeId) (name : String)

/-- The scope that an operation is asked of. -/
def Op.scope? : Op → Option ScopeId
  | .new => none
  | .enclose outer => some outer
  | .set scope _ _ => some scope
  | .get scope _ => some scope

/-- The value that an operation sets for a name in a scope. -/
def Op.value? (t : ScopeId) (x : String) : Op → Option Value
  | .set scope name v => if scope = t ∧ name = x then some v else none
  | _ => none

/-- The store after an operation. Reading changes nothing. -/
def perform (s : Store) : Op → Store
  | .new => s.newScope.2
  | .enclose outer => (s.enclose outer).2
  | .set scope x v => s.set scope x v
  | .get _ _ => s

/-- The operations so far, newest first. -/
abbrev Past := List Op

namespace Past

/-- The store that the operations make, from an empty one. -/
def store : Past → Store
  | [] => {}
  | op :: past => (store past).perform op

/-- How many scopes have been made. They are numbered in the order in which they are. -/
def made : Past → Nat
  | [] => 0
  | .new :: past | .enclose _ :: past => made past + 1
  | .set _ _ _ :: past | .get _ _ :: past => made past

/-- The scope around a scope: the one it was made in. -/
def outer? : Past → ScopeId → Option ScopeId
  | [], _ => none
  | .new :: past, t => if t = made past then none else outer? past t
  | .enclose outer :: past, t => if t = made past then some outer else outer? past t
  | .set _ _ _ :: past, t | .get _ _ :: past, t => outer? past t

/-- Every operation is asked of a scope that had been made by then. -/
def Valid : Past → Prop
  | [] => True
  | op :: past => Valid past ∧ ∀ scope ∈ op.scope?, scope < made past

/-- The scopes that lead outward from a scope, the scope itself first. -/
inductive Chain (past : Past) : ScopeId → List ScopeId → Prop where
  | last {t : ScopeId} : past.outer? t = none → Chain past t [t]
  | cons {t outer : ScopeId} {ts : List ScopeId} : past.outer? t = some outer → Chain past outer ts →
      Chain past t (t :: ts)

/-- The name has never been set in the scope. -/
def Unset (past : Past) (scope : ScopeId) (x : String) : Prop :=
  ∀ v, Op.set scope x v ∉ past

/-- The name has been set to `v` in the scope, and not since. -/
def Latest (past : Past) (scope : ScopeId) (x : String) (v : Value) : Prop :=
  ∃ since before : Past, past = since ++ .set scope x v :: before ∧ since.Unset scope x

/-- What the operations so far say about names. -/
structure NearestEnclosing (past : Past) : Prop where
  /-- A scope that is made now is none of those that are there. -/
  numbered : past.store.newScope.1 = past.made ∧ ∀ outer, (past.store.enclose outer).1 = past.made
  /-- The scope around a scope was there before it. -/
  outer_lt : ∀ {t outer : ScopeId}, past.store.outer? t = some outer → outer < t
  /-- It is the one that the scope was made in, whatever is done afterwards. -/
  outer_stays : ∀ {t : ScopeId} (since : Past), t < past.made → (store (since ++ past)).outer? t = past.outer? t
  /-- Every scope has one chain outward, and it ends. -/
  chain : ∀ t, ∃ ts, past.Chain t ts ∧ ∀ ts', past.Chain t ts' → ts' = ts
  /-- No scope occurs twice on the way, because each was made before the one inside it. -/
  descending : ∀ {t : ScopeId} {ts : List ScopeId}, past.Chain t ts → ts.Pairwise (· > ·)
  /-- What is found for a name is the value that was set last in the first scope of the chain in which the name has been
  set at all. -/
  found : ∀ {t : ScopeId} {ts : List ScopeId} {x : String} {v : Value}, past.Chain t ts →
    (past.store.get? t x = some v ↔ ∃ nearer scope farther, ts = nearer ++ scope :: farther ∧
      (∀ s ∈ nearer, past.Unset s x) ∧ past.Latest scope x v)
  /-- Nothing is found exactly if it has been set in none of them. -/
  notFound : ∀ {t : ScopeId} {ts : List ScopeId} {x : String}, past.Chain t ts →
    (past.store.get? t x = none ↔ ∀ s ∈ ts, past.Unset s x)
  /-- Setting a name changes what is found from a scope only for this name, only if the scope where it is set is on the
  chain, and only if the name has been set in none that is nearer. -/
  changed : ∀ {t scope : ScopeId} {ts : List ScopeId} {x name : String} {v : Value}, past.Chain t ts →
    scope < past.made → (store (.set scope name v :: past)).get? t x ≠ past.store.get? t x →
    x = name ∧ ∃ nearer farther, ts = nearer ++ scope :: farther ∧ ∀ s ∈ nearer, past.Unset s x

/-! ## What the store remembers -/

section
variable {past : Past} {t : ScopeId} {x : String} {v : Value}

theorem size_store (past : Past) : past.store.frames.size = past.made := by
  induction past with
  | nil => rfl
  | cons op past ih =>
    cases op with
    | new => simp [store, perform, newScope, made, ih]
    | enclose outer => simp [store, perform, Store.enclose, made, ih]
    | set scope x v => simp [store, perform, size_set, made, ih]
    | get scope x => simp [store, perform, made, ih]

theorem outer?_store (past : Past) (t : ScopeId) : past.store.outer? t = past.outer? t := by
  induction past with
  | nil => rfl
  | cons op past ih =>
    cases op with
    | new => simp only [store, perform, newScope, outer?_push, size_store, outer?, ih]
    | enclose outer => simp only [store, perform, Store.enclose, outer?_push, size_store, outer?, ih]
    | set scope x v => simp only [store, perform, outer?_set, outer?, ih]
    | get scope x => simp only [store, perform, outer?, ih]

/-- A scope holds what was set last. -/
theorem own?_store (hpast : past.Valid) (t : ScopeId) (x : String) :
    past.store.own? t x = past.findSome? fun op => op.value? t x := by
  induction past with
  | nil => rfl
  | cons op past ih =>
    obtain ⟨hvalid, hscope⟩ := hpast
    have hown := ih hvalid
    rw [List.findSome?_cons]
    cases op with
    | new => simpa only [store, perform, newScope, own?_push, Op.value?] using hown
    | enclose outer => simpa only [store, perform, Store.enclose, own?_push, Op.value?] using hown
    | get scope y => simpa only [store, perform, Op.value?] using hown
    | set scope y v =>
      by_cases h : t = scope ∧ x = y
      · obtain ⟨rfl, rfl⟩ := h
        have hlt : t < (store past).frames.size := by
          rw [size_store]
          exact hscope t rfl
        simp [store, perform, own?_set_self hlt, Op.value?]
      · have hne : ¬ (scope = t ∧ y = x) := fun heq => h ⟨heq.1.symm, heq.2.symm⟩
        simpa [store, perform, own?_set_of_ne h, Op.value?, hne] using hown

theorem unset_iff : past.Unset t x ↔ (past.findSome? fun op => op.value? t x) = none := by
  rw [List.findSome?_eq_none_iff]
  constructor
  · intro h op hop
    cases op with
    | set scope y v =>
      by_cases heq : scope = t ∧ y = x
      · obtain ⟨rfl, rfl⟩ := heq
        exact absurd hop (h v)
      · simp [Op.value?, heq]
    | _ => rfl
  · intro h v hv
    have hnone := h _ hv
    simp [Op.value?] at hnone

theorem latest_iff : past.Latest t x v ↔ (past.findSome? fun op => op.value? t x) = some v := by
  rw [List.findSome?_eq_some_iff]
  constructor
  · rintro ⟨since, before, rfl, hsince⟩
    refine ⟨since, .set t x v, before, rfl, by simp [Op.value?], ?_⟩
    exact List.findSome?_eq_none_iff.mp (unset_iff.mp hsince)
  · rintro ⟨since, op, before, rfl, hop, hsince⟩
    cases op with
    | set scope y w =>
      obtain ⟨⟨rfl, rfl⟩, rfl⟩ : (scope = t ∧ y = x) ∧ w = v := by simpa [Op.value?] using hop
      exact ⟨since, before, rfl, unset_iff.mpr (List.findSome?_eq_none_iff.mpr hsince)⟩
    | _ => cases hop

theorem own?_eq_none_iff (hpast : past.Valid) : past.store.own? t x = none ↔ past.Unset t x := by
  rw [own?_store hpast, unset_iff]

theorem own?_eq_some_iff (hpast : past.Valid) : past.store.own? t x = some v ↔ past.Latest t x v := by
  rw [own?_store hpast, latest_iff]

/-! ## The way outward -/

theorem outer?_lt (hpast : past.Valid) {outer : ScopeId} (h : past.outer? t = some outer) : outer < t := by
  induction past with
  | nil => cases h
  | cons op past ih =>
    obtain ⟨hvalid, hscope⟩ := hpast
    cases op with
    | new =>
      simp only [Past.outer?] at h
      split at h
      · cases h
      · exact ih hvalid h
    | enclose outer' =>
      simp only [Past.outer?] at h
      split at h
      · next ht =>
        obtain rfl := Option.some.inj h
        rw [ht]
        exact hscope outer' rfl
      · exact ih hvalid h
    | set _ _ _ => exact ih hvalid h
    | get _ _ => exact ih hvalid h

theorem made_le_append (since past : Past) : past.made ≤ made (since ++ past) := by
  induction since with
  | nil => exact Nat.le_refl _
  | cons op since ih => cases op <;> simp only [List.cons_append, made] <;> omega

theorem outer?_append (since : Past) (ht : t < past.made) : outer? (since ++ past) t = past.outer? t := by
  induction since with
  | nil => rfl
  | cons op since ih =>
    have hne : t ≠ made (since ++ past) := Nat.ne_of_lt (Nat.lt_of_lt_of_le ht (made_le_append since past))
    cases op with
    | new => simpa only [List.cons_append, Past.outer?, if_neg hne] using ih
    | enclose outer => simpa only [List.cons_append, Past.outer?, if_neg hne] using ih
    | set _ _ _ => exact ih
    | get _ _ => exact ih

theorem Chain.unique {ts ts' : List ScopeId} (h : past.Chain t ts) (h' : past.Chain t ts') : ts = ts' := by
  induction h generalizing ts' with
  | last hnone =>
    cases h' with
    | last _ => rfl
    | cons hsome _ => rw [hnone] at hsome; cases hsome
  | cons hsome _ ih =>
    cases h' with
    | last hnone => rw [hsome] at hnone; cases hnone
    | cons hsome' hrest =>
      obtain rfl := Option.some.inj (hsome.symm.trans hsome')
      rw [ih hrest]

theorem Chain.le (hpast : past.Valid) {ts : List ScopeId} (h : past.Chain t ts) : ∀ s ∈ ts, s ≤ t := by
  induction h with
  | last _ =>
    intro s hs
    exact Nat.le_of_eq (List.mem_singleton.mp hs)
  | cons hsome _ ih =>
    intro s hs
    rcases List.mem_cons.mp hs with rfl | hs
    · exact Nat.le_refl _
    · exact Nat.le_trans (ih s hs) (Nat.le_of_lt (outer?_lt hpast hsome))

theorem Chain.pairwise (hpast : past.Valid) {ts : List ScopeId} (h : past.Chain t ts) : ts.Pairwise (· > ·) := by
  induction h with
  | last _ => exact List.pairwise_singleton _ _
  | cons hsome hrest ih =>
    refine List.pairwise_cons.mpr ⟨?_, ih⟩
    intro s hs
    exact Nat.lt_of_le_of_lt (hrest.le hpast s hs) (outer?_lt hpast hsome)

theorem exists_chain (hpast : past.Valid) (t : ScopeId) : ∃ ts, past.Chain t ts := by
  induction t using Nat.strongRecOn with
  | ind t ih =>
    cases h : past.outer? t with
    | none => exact ⟨[t], .last h⟩
    | some outer =>
      obtain ⟨ts, hts⟩ := ih outer (outer?_lt hpast h)
      exact ⟨t :: ts, .cons h hts⟩

/-- Two searches that find different things differ first at one place, and neither finds anything before. -/
theorem exists_of_findSome?_ne {α β : Type} {f g : α → Option β} {l : List α} (h : l.findSome? f ≠ l.findSome? g) :
    ∃ l₁ a l₂, l = l₁ ++ a :: l₂ ∧ f a ≠ g a ∧ ∀ b ∈ l₁, f b = none ∧ g b = none := by
  induction l with
  | nil => exact absurd rfl h
  | cons a l ih =>
    rw [List.findSome?_cons, List.findSome?_cons] at h
    by_cases heq : f a = g a
    · rw [← heq] at h
      cases hf : f a with
      | some b => exact absurd (by simp [hf]) h
      | none =>
        simp only [hf] at h
        obtain ⟨l₁, a', l₂, rfl, hne, hbefore⟩ := ih h
        refine ⟨a :: l₁, a', l₂, rfl, hne, ?_⟩
        intro b hb
        rcases List.mem_cons.mp hb with rfl | hb
        · exact ⟨hf, heq ▸ hf⟩
        · exact hbefore b hb
    · exact ⟨[], a, l, rfl, heq, by simp⟩

/-- **A search goes along the chain** and takes the first value that it finds. -/
theorem get?_store (hpast : past.Valid) {ts : List ScopeId} (h : past.Chain t ts) (x : String) :
    past.store.get? t x = ts.findSome? fun s => past.store.own? s x := by
  induction h with
  | @last t hnone =>
    have hnext : past.store.next? t = none := by simp [next?, outer?_store, hnone]
    rw [get?_eq, hnext, List.findSome?_cons]
    cases past.store.own? t x <;> rfl
  | @cons t outer ts hsome _ ih =>
    have hnext : past.store.next? t = some outer := by
      simp [next?, outer?_store, hsome, outer?_lt hpast hsome]
    rw [get?_eq, hnext, Option.bind_some, ih, List.findSome?_cons]
    cases past.store.own? t x <;> rfl

theorem get?_eq_some_iff (hpast : past.Valid) {ts : List ScopeId} (h : past.Chain t ts) :
    past.store.get? t x = some v ↔ ∃ nearer scope farther, ts = nearer ++ scope :: farther ∧
      (∀ s ∈ nearer, past.Unset s x) ∧ past.Latest scope x v := by
  simp only [get?_store hpast h, List.findSome?_eq_some_iff, own?_eq_some_iff hpast, own?_eq_none_iff hpast]
  constructor
  · rintro ⟨nearer, scope, farther, hts, hlatest, hunset⟩
    exact ⟨nearer, scope, farther, hts, hunset, hlatest⟩
  · rintro ⟨nearer, scope, farther, hts, hunset, hlatest⟩
    exact ⟨nearer, scope, farther, hts, hlatest, hunset⟩

theorem get?_eq_none_iff (hpast : past.Valid) {ts : List ScopeId} (h : past.Chain t ts) :
    past.store.get? t x = none ↔ ∀ s ∈ ts, past.Unset s x := by
  simp only [get?_store hpast h, List.findSome?_eq_none_iff, own?_eq_none_iff hpast]

/-- Setting a name leaves every chain as it is. -/
theorem Chain.set {ts : List ScopeId} (h : past.Chain t ts) (scope : ScopeId) (name : String) (v : Value) :
    Chain (.set scope name v :: past) t ts := by
  induction h with
  | last hnone => exact .last hnone
  | cons hsome _ ih => exact .cons hsome ih

/-- The first scope on the chain that now holds something else is the one where the name was set. -/
theorem get?_set_ne (hpast : past.Valid) {ts : List ScopeId} {scope : ScopeId} {name : String}
    (h : past.Chain t ts) (hscope : scope < past.made)
    (hne : (store (.set scope name v :: past)).get? t x ≠ past.store.get? t x) :
    x = name ∧ ∃ nearer farther, ts = nearer ++ scope :: farther ∧ ∀ s ∈ nearer, past.Unset s x := by
  have hvalid : Valid (.set scope name v :: past) := by
    refine ⟨hpast, ?_⟩
    intro s hs
    obtain rfl := Option.some.inj hs
    exact hscope
  rw [get?_store hvalid (h.set scope name v), get?_store hpast h] at hne
  obtain ⟨nearer, s, farther, rfl, hdiffer, hbefore⟩ := exists_of_findSome?_ne hne
  have hplace : s = scope ∧ x = name :=
    Decidable.byContradiction fun hother => hdiffer (own?_set_of_ne hother v)
  obtain ⟨rfl, rfl⟩ := hplace
  refine ⟨rfl, nearer, farther, rfl, ?_⟩
  intro d hd
  exact (own?_eq_none_iff hpast).mp (hbefore d hd).2

end

/-- **Names are looked up in the nearest enclosing scope that has them**, whatever scopes have been made and whatever has
been set in them, and in which order. -/
theorem nearestEnclosing (past : Past) (hpast : past.Valid) : past.NearestEnclosing where
  numbered := ⟨size_store past, fun _ => size_store past⟩
  outer_lt := by
    intro t outer h
    rw [outer?_store] at h
    exact outer?_lt hpast h
  outer_stays := by
    intro t since ht
    rw [outer?_store, outer?_append since ht]
  chain := by
    intro t
    obtain ⟨ts, hts⟩ := exists_chain hpast t
    exact ⟨ts, hts, fun ts' hts' => hts'.unique hts⟩
  descending := fun h => h.pairwise hpast
  found := fun h => get?_eq_some_iff hpast h
  notFound := fun h => get?_eq_none_iff hpast h
  changed := fun h hscope hne => get?_set_ne hpast h hscope hne

/-- A name that is set outside, then inside, and then outside again when there is already a scope inside both. -/
def shadowed : Past :=
  [.set 0 "y" .null, .set 0 "x" (.int 3), .enclose 1, .set 1 "x" (.int 2), .enclose 0, .set 0 "x" (.int 1), .new]

theorem nearestEnclosing_shadowed : shadowed.Valid ∧ shadowed.Chain 2 [2, 1, 0] ∧
    shadowed.store.get? 2 "x" = some (.int 2) ∧ shadowed.store.get? 2 "y" = some .null ∧
    shadowed.store.get? 2 "z" = none := by
  have hvalid : shadowed.Valid := by simp [shadowed, Valid, made, Op.scope?]
  have hchain : shadowed.Chain 2 [2, 1, 0] := .cons rfl (.cons rfl (.last rfl))
  have h := nearestEnclosing shadowed hvalid
  refine ⟨hvalid, hchain, (h.found hchain).mpr ?_, (h.found hchain).mpr ?_, (h.notFound hchain).mpr ?_⟩
  · refine ⟨[2], 1, [0], rfl, by simp [Unset, shadowed], ?_⟩
    exact ⟨[.set 0 "y" .null, .set 0 "x" (.int 3), .enclose 1], _, rfl, by simp [Unset]⟩
  · refine ⟨[2, 1], 0, [], rfl, by simp [Unset, shadowed], ?_⟩
    exact ⟨[], _, rfl, by simp [Unset]⟩
  · simp [Unset, shadowed]

end Past

end Store

end LetLang
