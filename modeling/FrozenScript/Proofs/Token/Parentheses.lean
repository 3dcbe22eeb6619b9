import FrozenScript.Proofs.Token.Round

/-!
# Open parentheses

`openParens` counts the parentheses that are open behind some tokens, each one by itself: those that
nothing behind them has closed. The scanner keeps a counter instead, and the main statement,
`openParens_concat`, says that it is this number.

Between the two stands `surplus`, which looks at every place at once. A parenthesis that is closed
adds nothing to it, and a token at the end changes it like the counter.
-/

namespace FrozenScript

/-- Tokens behind an opening parenthesis leave it open: from it on, never more parentheses are
closed than opened. -/
def LeavesOpen (inner : List Kind) : Prop :=
  ∀ length ≤ inner.length, (inner.take length).count (.symbol .closeParen) ≤
    (inner.take length).count (.symbol .openParen)

instance (inner : List Kind) : Decidable (LeavesOpen inner) :=
  inferInstanceAs (Decidable (∀ length ≤ inner.length, _))

/-- The number of parentheses that are open behind some tokens. -/
def openParens : List Kind → Nat
  | [] => 0
  | kind :: inner =>
    if kind = .symbol .openParen ∧ LeavesOpen inner then openParens inner + 1 else openParens inner

/-- By how many the opening parentheses outnumber the closing ones from some place on, at most. -/
def surplus : List Kind → Nat
  | [] => 0
  | kind :: rest =>
    max (surplus rest)
      ((kind :: rest).count (.symbol .openParen) - (kind :: rest).count (.symbol .closeParen))

theorem count_le_surplus (before rest : List Kind) :
    rest.count (.symbol .openParen) ≤
      surplus (before ++ rest) + rest.count (.symbol .closeParen) := by
  induction before with
  | nil =>
      cases rest with
      | nil => exact Nat.zero_le _
      | cons kind rest =>
          rw [List.nil_append, surplus]
          omega
  | cons kind before ih =>
      rw [List.cons_append, surplus]
      omega

/-- There is a place from which the opening parentheses outnumber the closing ones by so many. -/
theorem exists_surplus (kinds : List Kind) :
    ∃ before rest, kinds = before ++ rest ∧
      surplus kinds + rest.count (.symbol .closeParen) = rest.count (.symbol .openParen) := by
  induction kinds with
  | nil => exact ⟨[], [], rfl, rfl⟩
  | cons kind kinds ih =>
      by_cases hlater : (kind :: kinds).count (.symbol .openParen) ≤
          surplus kinds + (kind :: kinds).count (.symbol .closeParen)
      · obtain ⟨before, rest, hsplit, hrest⟩ := ih
        refine ⟨kind :: before, rest, congrArg (kind :: ·) hsplit, ?_⟩
        rw [surplus]
        omega
      · refine ⟨[], kind :: kinds, rfl, ?_⟩
        rw [surplus]
        omega

/-- The surplus of tokens that leave a parenthesis open is that of all of them. -/
theorem surplus_of_leavesOpen {inner : List Kind} (h : LeavesOpen inner) :
    surplus inner + inner.count (.symbol .closeParen) = inner.count (.symbol .openParen) := by
  have hle := count_le_surplus [] inner
  obtain ⟨before, rest, rfl, hrest⟩ := exists_surplus inner
  have hbefore := h before.length (by simp)
  rw [List.take_left] at hbefore
  rw [List.nil_append, List.count_append, List.count_append] at hle
  rw [List.count_append, List.count_append]
  omega

/-- Tokens close a parenthesis in front of them if at some place more were closed than opened. -/
theorem exists_of_not_leavesOpen {inner : List Kind} (h : ¬ LeavesOpen inner) :
    ∃ before rest, inner = before ++ rest ∧
      before.count (.symbol .openParen) < before.count (.symbol .closeParen) := by
  refine Classical.byContradiction fun hnone => h fun length _ => Nat.le_of_not_lt fun hlt => ?_
  exact hnone ⟨_, _, (List.take_append_drop length inner).symm, hlt⟩

/-- As many parentheses are open as the surplus says. -/
theorem openParens_eq_surplus (kinds : List Kind) : openParens kinds = surplus kinds := by
  induction kinds with
  | nil => rfl
  | cons kind inner ih =>
      rw [openParens, surplus, ih, List.count_cons, List.count_cons]
      by_cases hkind : kind = .symbol .openParen
      · subst hkind
        by_cases hopen : LeavesOpen inner
        · have hinner := surplus_of_leavesOpen hopen
          simp [hopen]
          omega
        · -- What is closed behind the parenthesis outweighs it, so a later place has the surplus.
          obtain ⟨before, rest, rfl, hclosed⟩ := exists_of_not_leavesOpen hopen
          have hrest := count_le_surplus before rest
          simp [hopen]
          omega
      · have hinner := count_le_surplus [] inner
        rw [List.nil_append] at hinner
        simp [hkind]
        omega

/-! ## The counter of the scanner -/

/-- A token opens one parenthesis, or closes one, or does nothing to the counter. -/
theorem depthAfter_eq (kind : Kind) (depth : Nat) :
    kind.depthAfter depth =
      depth + [kind].count (.symbol .openParen) - [kind].count (.symbol .closeParen) := by
  cases kind with
  | symbol sign => cases sign <;> rfl
  | _ => rfl

theorem count_parens_singleton (kind : Kind) :
    [kind].count (.symbol .openParen) + [kind].count (.symbol .closeParen) ≤ 1 := by
  cases kind with
  | symbol sign => cases sign <;> decide
  | _ => exact Nat.zero_le 1

theorem surplus_concat (kinds : List Kind) (kind : Kind) :
    surplus (kinds ++ [kind]) = kind.depthAfter (surplus kinds) := by
  have hone := count_parens_singleton kind
  rw [depthAfter_eq]
  induction kinds with
  | nil =>
      simp only [List.nil_append, surplus]
      omega
  | cons first rest ih =>
      rw [List.cons_append, surplus, surplus, ih, ← List.cons_append, List.count_append,
        List.count_append]
      omega

/-- The number of open parentheses changes with a token like the counter. -/
theorem openParens_concat (kinds : List Kind) (kind : Kind) :
    openParens (kinds ++ [kind]) = kind.depthAfter (openParens kinds) := by
  rw [openParens_eq_surplus, openParens_eq_surplus, surplus_concat]

/-- A closing parenthesis without an open one closes nothing later. -/
example : openParens [.symbol .closeParen, .symbol .openParen, .symbol .openParen,
    .symbol .closeParen] = 1 := by decide

end FrozenScript
