import LetLang.Proofs.Parser.Completeness
import LetLang.Proofs.Parser.Lookahead

/-!
# The first diagnostic is at the first token that cannot stand

A text that is no program stops looking like one at a certain token: what stands before it is the beginning of some
program, and with it of none. The first diagnostic is about exactly this token. It is never late, because the tokens
before the one it is about can be gone on with; and it is never early, because after this one there is nothing that
the parser accepts, and the parser accepts every program.

So nothing has to be said about the states that the parser can be in, and which tokens the grammar allows in each.
That a token is impossible is learned from the parser itself: it reports something whatever follows, and a program
it would have read without a word.
-/

set_option autoImplicit false

namespace LetLang

open Grammar LetLang.Parser

/-- The tokens `before` are the beginning of a program, and no program goes on with the next of `after`, or ends
where there is none. -/
def Grammar.Breaks (before after : List Token) : Prop :=
  Begins .stmts before ∧
    match after with
    | [] => ¬ Derives .stmts before
    | t :: _ => ¬ Begins .stmts (before ++ [t])

/-- The message is about the token that comes next, or about the end. -/
def Diagnostic.Points (message : String) (ts : List Token) : Prop :=
  (∃ want : Token.Kind, message =
    "expected next token to be " ++ want.name ++ ", got " ++ (kindAhead ts).name ++ " instead") ∨
  message = "no prefix parse function for " ++ (kindAhead ts).name ++ " found" ∨
  ∃ t rest, ts = t :: rest ∧ t.kind = .int ∧
    message = "could not parse \"" ++ t.literal ++ "\" as integer"

theorem Diagnostic.Names.points {d : Diagnostic} {ts : List Token} (h : d.Names ts) :
    Points d.message ts := by
  cases h with
  | expected want ts => exact .inl ⟨want, rfl⟩
  | noOperand ts => exact .inr (.inl rfl)
  | @tooLarge t ts ht => exact .inr (.inr ⟨t, ts, rfl, ht, rfl⟩)

theorem not_derives_of_reports (fuel : Nat) {ts : List Token}
    (h : ∀ n r, statementsToEnd (n + fuel) ts = some r → r.diagnostics ≠ []) :
    ¬ Derives .stmts ts := by
  intro hts
  -- with enough fuel the statements give something, and of a program they report nothing
  have hfuel : 5 * ts.length + 1 ≤ (5 * ts.length + 1) + fuel := Nat.le_add_right _ _
  obtain ⟨r, hr, -⟩ := halts_statementsToEnd _ ts hfuel
  have hstmts : Then .stmts (· = []) ts := ⟨ts, [], (List.append_nil _).symm, hts, rfl⟩
  exact h _ r hr (complete_statementsToEnd _ ts hstmts r hr).1

theorem breaks_of_reports {fuel : Nat} {before after : List Token} (hbegins : Begins .stmts before)
    (h : ∀ n us r, us.head? = after.head? → statementsToEnd (n + fuel) (before ++ us) = some r →
      r.diagnostics ≠ []) : Breaks before after := by
  refine ⟨hbegins, ?_⟩
  cases after with
  | nil => exact not_derives_of_reports fuel fun n r hr => h n [] r rfl (by rwa [List.append_nil])
  | cons t rest =>
    intro hbegins'
    obtain ⟨us, hus⟩ := hbegins'
    refine not_derives_of_reports fuel (fun n r hr => h n (t :: us) r rfl ?_) hus
    rwa [List.append_assoc] at hr

/-- **The first diagnostic of a text is about the first token that cannot stand where it does**: the tokens before it
are the beginning of a program, and with it they are not; or it is about the end, the tokens are the beginning of a
program and no program themselves. -/
theorem ofSource_firstDiagnostic (src : Source) (d : Diagnostic) (ds : List Diagnostic)
    (h : (Program.ofSource src).2 = d :: ds) :
    ∃ before after, src.tokens = before ++ after ∧ Breaks before after ∧
      Diagnostic.Points d.message after := by
  obtain ⟨r, hr, hparse⟩ := Program.parse_eq src.tokens
  rw [Program.ofSource, hparse] at h
  have hlocated := located_statementsToEnd (Program.fuelFor src.tokens) src.tokens
  rw [← Nat.zero_add (Program.fuelFor src.tokens)] at hr
  obtain ⟨before, after, hts, hnames, hbegins, hreports⟩ := hlocated.fault hr h
  exact ⟨before, after, hts, breaks_of_reports hbegins hreports, hnames.points⟩

/-- A group that a semicolon stands in: what stands before the semicolon could have been gone on with. -/
theorem ofSource_firstDiagnostic_openGroup :
    (Program.ofSource (.ofString "let x = (1 + 2; x")).2 = [.expected .closeParen .semicolon] ∧
    ∃ before after, (Source.ofString "let x = (1 + 2; x").tokens = before ++ after ∧
      Breaks before after ∧
      Diagnostic.Points "expected next token to be ), got ; instead" after := by
  have h : (Program.ofSource (.ofString "let x = (1 + 2; x")).2 = [.expected .closeParen .semicolon] := by
    decide +kernel
  exact ⟨h, ofSource_firstDiagnostic _ _ _ h⟩

end LetLang
