import LetLang.Proofs.Grammar
import LetLang.Proofs.Token.Separation

/-!
# Beginnings of phrases

A reader that has come some way does not know yet whether what it reads is a phrase, only that it is the beginning of
one: that there are tokens with which it could go on (`Begins`). There is one lemma for each place in a rule where a
reader can stop, and each of them goes on in the shortest way there is: a missing expression becomes a name, a missing
block an empty one, and what is still open is closed.
-/

set_option autoImplicit false

namespace LetLang.Grammar

open Token (fixed)

/-- The tokens are the beginning of such a phrase. -/
def Begins (P : Phrase) (a : List Token) : Prop := ∃ b, Derives P (a ++ b)

variable {P : Phrase} {a b l : List Token} {t kw o p : Token}

theorem Derives.begins (h : Derives P a) : Begins P a :=
  ⟨[], by rwa [List.append_nil]⟩

theorem Begins.of_append (h : Begins P (a ++ b)) : Begins P a := by
  obtain ⟨c, hc⟩ := h
  exact ⟨b ++ c, by rwa [← List.append_assoc]⟩

/-! ## Statements -/

theorem begins_stmts_nil : Begins .stmts [] := Derives.noStmts.begins

theorem begins_stmts (h : Begins .stmt a) : Begins .stmts a := by
  obtain ⟨b, hb⟩ := h
  exact ⟨b, by simpa using Derives.moreStmts hb .noStmts⟩

theorem begins_stmts_append (ha : Derives .stmt a) (h : Begins .stmts b) :
    Begins .stmts (a ++ b) := by
  obtain ⟨c, hc⟩ := h
  exact ⟨c, by simpa using Derives.moreStmts ha hc⟩

theorem begins_stmt_bind {name eq : Token} (hk : kw.kind = .kwLet) (hn : name.kind = .ident)
    (he : eq.kind = .assign) (h : Begins .expr a) : Begins .stmt (kw :: name :: eq :: a) := by
  obtain ⟨b, hb⟩ := h
  exact ⟨b, by simpa using Derives.bind hk hn he hb .noSemicolon⟩

theorem begins_stmt_ret (hk : kw.kind = .kwReturn) (h : Begins .expr a) :
    Begins .stmt (kw :: a) := by
  obtain ⟨b, hb⟩ := h
  exact ⟨b, by simpa using Derives.ret hk hb .noSemicolon⟩

theorem begins_stmt_expr (h : Begins .expr a) : Begins .stmt a := by
  obtain ⟨b, hb⟩ := h
  exact ⟨b, by simpa using Derives.exprStmt hb .noSemicolon⟩

theorem begins_block_nil : Begins .block [] := by
  have hblock := Derives.block (o := fixed .openBrace) (c := fixed .closeBrace) rfl .noStmts rfl
  exact ⟨_, hblock⟩

theorem begins_block (ht : t.kind = .openBrace) (h : Begins .stmts a) : Begins .block (t :: a) := by
  obtain ⟨b, hb⟩ := h
  exact ⟨b ++ [fixed .closeBrace], by simpa using Derives.block ht hb rfl⟩

/-! ## Expressions -/

theorem begins_expr_nil : Begins .expr [] := ⟨[⟨.ident, "x"⟩], .name rfl⟩

theorem begins_unary (ht : t.kind.isSign = true) (h : Begins .expr a) : Begins .expr (t :: a) := by
  obtain ⟨b, hb⟩ := h
  exact ⟨b, .unary ht hb⟩

theorem begins_binary (hl : Derives .expr l) (ht : t.kind.isInfix = true) (h : Begins .expr a) :
    Begins .expr (l ++ t :: a) := by
  obtain ⟨b, hb⟩ := h
  exact ⟨b, by simpa using Derives.binary hl ht hb⟩

theorem begins_group (ho : o.kind = .openParen) (h : Begins .expr a) : Begins .expr (o :: a) := by
  obtain ⟨b, hb⟩ := h
  exact ⟨b ++ [fixed .closeParen], by simpa using Derives.group ho hb rfl⟩

theorem begins_branch (hk : kw.kind = .kwIf) (ho : o.kind = .openParen) (ha : Derives .expr a)
    (hp : p.kind = .closeParen) (h : Begins .block b) :
    Begins .expr (kw :: o :: (a ++ p :: b)) := by
  obtain ⟨c, hc⟩ := h
  exact ⟨c, by simpa using Derives.ifThen hk ho ha hp hc⟩

theorem begins_condition (hk : kw.kind = .kwIf) (ho : o.kind = .openParen) (h : Begins .expr a) :
    Begins .expr (kw :: o :: a) := by
  obtain ⟨b, hb⟩ := h
  have hbranch := begins_branch hk ho hb (p := fixed .closeParen) rfl begins_block_nil
  exact Begins.of_append (b := b ++ [fixed .closeParen]) (by simpa using hbranch)

theorem begins_otherBranch {kw' : Token} {b' : List Token} (hk : kw.kind = .kwIf)
    (ho : o.kind = .openParen) (ha : Derives .expr a) (hp : p.kind = .closeParen)
    (hb : Derives .block b) (hk' : kw'.kind = .kwElse) (h : Begins .block b') :
    Begins .expr (kw :: o :: (a ++ p :: (b ++ kw' :: b'))) := by
  obtain ⟨c, hc⟩ := h
  exact ⟨c, by simpa using Derives.ifElse hk ho ha hp hb hk' hc⟩

theorem begins_body (hk : kw.kind = .kwFn) (ho : o.kind = .openParen) (ha : Derives .parameters a)
    (hp : p.kind = .closeParen) (h : Begins .block b) :
    Begins .expr (kw :: o :: (a ++ p :: b)) := by
  obtain ⟨c, hc⟩ := h
  exact ⟨c, by simpa using Derives.fn hk ho ha hp hc⟩

theorem begins_parameters (hk : kw.kind = .kwFn) (ho : o.kind = .openParen)
    (h : Begins .parameters a) : Begins .expr (kw :: o :: a) := by
  obtain ⟨b, hb⟩ := h
  have hbody := begins_body hk ho hb (p := fixed .closeParen) rfl begins_block_nil
  exact Begins.of_append (b := b ++ [fixed .closeParen]) (by simpa using hbody)

theorem begins_call (hl : Derives .expr l) (ho : o.kind = .openParen) (h : Begins .arguments a) :
    Begins .expr (l ++ o :: a) := by
  obtain ⟨b, hb⟩ := h
  exact ⟨b ++ [fixed .closeParen], by simpa using Derives.call hl ho hb rfl⟩

/-! ## Lists in parentheses -/

theorem begins_arguments (h : Begins .argumentList a) : Begins .arguments a := by
  obtain ⟨b, hb⟩ := h
  exact ⟨b, .someArguments hb⟩

theorem begins_argument (h : Begins .expr a) : Begins .argumentList a := by
  obtain ⟨b, hb⟩ := h
  exact ⟨b, .oneArgument hb⟩

theorem begins_moreArguments (hl : Derives .expr l) (ht : t.kind = .comma)
    (h : Begins .argumentList a) : Begins .argumentList (l ++ t :: a) := by
  obtain ⟨b, hb⟩ := h
  exact ⟨b, by simpa using Derives.moreArguments hl ht hb⟩

theorem begins_moreParameters {x : Token} (hx : x.kind = .ident) (ht : t.kind = .comma)
    (h : Begins .parameterList a) : Begins .parameterList (x :: t :: a) := by
  obtain ⟨b, hb⟩ := h
  exact ⟨b, .moreParameters hx ht hb⟩

end LetLang.Grammar
