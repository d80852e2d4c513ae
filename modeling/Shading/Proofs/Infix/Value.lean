import Shading.Proofs.Infix.Tree

/-!
# Resolving an infix expression

An ordered tree has a value, in which words are read as operands and symbols become
operations.  Resolving an expression gives the value of its ordered tree: on one level by
induction on the tree, because the root that is found is the symbol that leads
(`gives_level`), and then level by level from the innermost groups outwards
(`gives_within`).

* `evaluate_expression`: what a session makes of the text of an expression.
-/

namespace Shading

open Token (IsExpression IsOperand)

namespace Tree

open Token (items)

/-- The expression of a tree: words are read as operands, symbols become operations, and
parentheses leave no trace. -/
def value (scope : Scope) : Tree → Option Expr
  | .word w =>
      match Operand.read scope w with
      | .expr result => some result
      | .fresh _ => none
  | .group inner => inner.value scope
  | .node left s right =>
      match s.between?, left.value scope, right.value scope with
      | some operation, some a, some b => some (.binary operation a b)
      | _, _, _ => none

theorem exists_between {s : Symbol} (h : s ∈ Symbol.infixes) :
    ∃ operation, s.between? = some operation := by
  refine Option.isSome_iff_exists.mp ?_
  revert s
  decide

/-- The tree of an expression has a value. -/
theorem exists_value {tree : Tree} (h : IsExpression tree.inorder) (scope : Scope) :
    ∃ result, tree.value scope = some result := by
  induction tree with
  | word w =>
      cases h with
      | single h =>
          cases h with
          | word h =>
              exact ⟨Operand.ofWord scope w, by simp [value, Token.read_of_isWord h]⟩
  | group inner ih =>
      cases h with
      | single h =>
          cases h with
          | group h => exact ih h
  | node left s right ihleft ihright =>
      obtain ⟨hleft, hright⟩ := IsExpression.split h
      obtain ⟨a, ha⟩ := ihleft hleft
      obtain ⟨b, hb⟩ := ihright hright
      obtain ⟨operation, hs⟩ := exists_between (h.alternating.isInfix s (by simp [inorder]))
      exact ⟨.binary operation a b, by simp [value, hs, ha, hb]⟩

/-- Splitting a level and resolving what is left builds its ordered tree, if the groups have
the values of their trees. -/
theorem gives_level (val : List Piece → Expr) (setting : Setting) {tree : Tree}
    (h : IsExpression tree.inorder) (hordered : tree.Ordered)
    (hgroups : ∀ inner : Tree, .group inner.inorder ∈ tree.inorder → inner.Ordered →
      inner.value setting.scope = some (val (Token.pieces inner.inorder)))
    {levels : Nat} (hlevels : tree.inorder.countP Token.isSymbol ≤ levels) :
    Drafting.Gives (Statement.tree setting (.ofItems levels (items val tree.inorder)))
      (tree.value setting.scope) := by
  induction tree generalizing levels with
  | word w =>
      have hword : Token.IsWord w := h.alternating.isWord w (by simp [inorder])
      rw [value, Token.read_of_isWord hword]
      exact Token.gives_word val hword setting levels
  | group inner ih =>
      rw [value, hgroups inner (by simp [inorder]) hordered]
      exact Token.gives_value val inner.inorder setting levels
  | node left s right ihleft ihright =>
      obtain ⟨hleads, hleftOrdered, hrightOrdered⟩ := hordered
      obtain ⟨hleft, hright⟩ := IsExpression.split h
      obtain ⟨a, ha⟩ := exists_value hleft setting.scope
      obtain ⟨b, hb⟩ := exists_value hright setting.scope
      obtain ⟨operation, hs⟩ := exists_between (h.alternating.isInfix s (by simp [inorder]))
      cases hfind : Cut.find? (items val (node left s right).inorder) with
      | none =>
          obtain ⟨token, htoken, hoperand⟩ := Token.eq_singleton_of_find? val h hfind
          have hmem : Token.symbol s ∈ [token] := by simp [← htoken, inorder]
          obtain rfl := List.mem_singleton.mp hmem
          cases hoperand
      | some cut =>
          -- The root that is found is the winning symbol, and there is only one.
          obtain ⟨⟨splitLeft, symbol, splitRight⟩, htokens, rfl, hleads'⟩ :=
            Token.leads_of_find? val h.alternating hfind
          obtain ⟨rfl, rfl, rfl⟩ := hleads'.unique hleads htokens.symm
          have hcount : left.inorder.countP Token.isSymbol + right.inorder.countP Token.isSymbol <
              levels := by
            simp only [inorder, List.countP_append, List.countP_cons, Token.isSymbol_symbol,
              if_true] at hlevels
            omega
          obtain ⟨levels, rfl⟩ : ∃ n, levels = n + 1 := ⟨levels - 1, by omega⟩
          have hgivesLeft : Drafting.Gives
              (Statement.tree setting (.ofItems levels (items val left.inorder))) _ :=
            ihleft hleft hleftOrdered
              (fun inner hinner => hgroups inner (by simp [inorder, hinner])) (by omega)
          have hgivesRight : Drafting.Gives
              (Statement.tree setting (.ofItems levels (items val right.inorder))) _ :=
            ihright hright hrightOrdered
              (fun inner hinner => hgroups inner (by simp [inorder, hinner])) (by omega)
          rw [ha] at hgivesLeft
          rw [hb] at hgivesRight
          rw [value, hs, ha, hb]
          exact Token.gives_cut val hleft.alternating hright.alternating hfind hs hgivesLeft
            hgivesRight

end Tree

namespace Token

theorem countP_isSymbol_le (tokens : List Token) :
    tokens.countP isSymbol ≤ totalSymbols tokens := by
  induction tokens with
  | nil => simp
  | cons token rest ih =>
      rw [List.countP_cons, totalSymbols]
      cases token with
      | word w => simpa [symbolCount, isSymbol] using ih
      | symbol s =>
          simp only [symbolCount, isSymbol, if_true]
          omega
      | group inner =>
          simp only [isSymbol, Bool.false_eq_true, if_false]
          omega

/-- A group has no more symbols than its level, and parentheses nest less deep in it. -/
theorem group_le {tokens inner : List Token} (h : .group inner ∈ tokens) :
    totalSymbols inner ≤ totalSymbols tokens ∧ nesting inner < nesting tokens := by
  induction tokens with
  | nil => simp at h
  | cons token rest ih =>
      rw [totalSymbols, nesting]
      rcases List.mem_cons.mp h with rfl | hmem
      · rw [symbolCount, depth]
        omega
      · obtain ⟨hsymbols, hnesting⟩ := ih hmem
        omega

end Token

namespace Tree

/-- Resolving an expression gives the value of its ordered tree. -/
theorem gives_within {tokens : List Token} (h : IsExpression tokens) (setting : Setting) :
    ∀ {tree : Tree} {levels : Nat}, tree.inorder = tokens → tree.Ordered →
      Token.totalSymbols tokens + Token.nesting tokens ≤ levels →
      Drafting.Gives (Statement.within setting levels (Token.pieces tokens))
        (tree.value setting.scope) := by
  induction h using IsExpression.levels with
  | level tokens h hgroups =>
      intro tree levels htree hordered hlevels
      -- What the groups give is their value from here on.
      let val : List Piece → Expr := fun parts =>
        Drafting.given (Statement.within setting (levels - 1) parts)
      have hgives : ∀ inner : Tree, .group inner.inorder ∈ tokens → inner.Ordered →
          Drafting.Gives (Statement.within setting (levels - 1) (Token.pieces inner.inorder))
            (inner.value setting.scope) := by
        intro inner hmem hinner
        obtain ⟨hsymbols, hnesting⟩ := Token.group_le hmem
        exact hgroups inner.inorder hmem rfl hinner (by omega)
      have hval : ∀ inner : Tree, .group inner.inorder ∈ tokens → inner.Ordered →
          inner.value setting.scope = some (val (Token.pieces inner.inorder)) := by
        intro inner hmem hinner
        obtain ⟨result, hresult⟩ := exists_value (h.isExpression_of_mem hmem) setting.scope
        have hstep := hgives inner hmem hinner
        rw [hresult] at hstep ⊢
        exact congrArg some (Drafting.given_of_gives hstep).symm
      have hpieces : Drafting.Gives (Statement.pieces setting levels (Token.pieces tokens))
          (Token.items val tokens) := by
        refine Token.gives_items val fun inner hmem => ?_
        obtain ⟨innerTree, rfl, hinner⟩ := exists_tree (h.isExpression_of_mem hmem)
        obtain ⟨-, hnesting⟩ := Token.group_le hmem
        refine ⟨by omega, ?_⟩
        rw [← hval innerTree hmem hinner]
        exact hgives innerTree hmem hinner
      subst htree
      have hcount := Token.countP_isSymbol_le tree.inorder
      exact hpieces.bind (gives_level val setting h hordered hval (by omega))

end Tree

/-- Resolving an infix expression builds the one tree in which every symbol wins over those of
its level below it, and changes nothing but the events. -/
theorem Session.evaluate_expression {tokens : List Token} (h : IsExpression tokens)
    (session : Session)
    (hlimit : Token.totalSymbols tokens + Token.nesting tokens ≤ session.options.limit) :
    ∃ (tree : Tree) (result : Expr) (parts : List Piece) (events : List Event),
      (tree.inorder = tokens ∧ tree.Ordered ∧
        ∀ other : Tree, other.inorder = tokens → other.Ordered → other = tree) ∧
      tree.value session.scope = some result ∧
      Brackets.paren.cut session.options.limit (Token.spaced tokens) = .ok parts ∧
      (Session.evaluate parts).run session =
        (.ok (some result), { session with events := session.events ++ events }) := by
  obtain ⟨tree, rfl, hordered⟩ := Tree.exists_tree h
  obtain ⟨result, hresult⟩ := Tree.exists_value h session.scope
  have hgives : Drafting.Gives
      (Statement.value session.setting (Token.pieces tree.inorder)) (some result) := by
    rw [← hresult]
    exact Tree.gives_within h session.setting rfl hordered hlimit
  obtain ⟨events, hrun⟩ := evaluate_of_gives hgives
  have hcut := h.cut_spaced (Nat.le_trans (Nat.le_add_left ..) hlimit)
  have hunique : ∀ other : Tree, other.inorder = tree.inorder → other.Ordered → other = tree :=
    fun other heq hother => hother.unique hordered heq
  exact ⟨tree, result, _, events, ⟨rfl, hordered, hunique⟩, hresult, hcut, hrun⟩

/-- Three differences, one of them in a group and with an exponent that has a sign. -/
theorem Session.evaluate_expression_nested :
    let minus : Symbol := ⟨['-'], .subtractive, .betweenOrBefore .subtract .negate⟩
    let tokens : List Token := [.word ['a'], .symbol minus,
      .group [.word ['b'], .symbol minus, .word "1e-5".toList], .symbol minus, .word ['c']]
    let session : Session := { options := { limit := 4 } }
    IsExpression tokens ∧ Token.totalSymbols tokens + Token.nesting tokens = 4 ∧
    ∃ (tree : Tree) (result : Expr) (parts : List Piece) (events : List Event),
      (tree.inorder = tokens ∧ tree.Ordered ∧
        ∀ other : Tree, other.inorder = tokens → other.Ordered → other = tree) ∧
      tree.value session.scope = some result ∧
      Brackets.paren.cut session.options.limit (Token.spaced tokens) = .ok parts ∧
      (Session.evaluate parts).run session =
        (.ok (some result), { session with events := session.events ++ events }) := by
  intro minus tokens session
  have hminus : minus ∈ Symbol.infixes := by decide
  have hword : ∀ c, c ∈ ['a', 'b', 'c'] → IsOperand (.word [c]) := by
    intro c hc
    refine .word ⟨by simp, ?_, .inl ?_⟩ <;> revert c <;> decide
  have hnumber : IsOperand (.word "1e-5".toList) :=
    .word ⟨by decide, by decide, .inr (by decide +kernel)⟩
  have hinner := IsExpression.link (hword 'b' (by decide)) hminus (.single hnumber)
  have htokens : IsExpression tokens :=
    .link (hword 'a' (by decide)) hminus
      (.link (.group hinner) hminus (.single (hword 'c' (by decide))))
  have hlimit : Token.totalSymbols tokens + Token.nesting tokens = 4 := by decide
  exact ⟨htokens, hlimit, Session.evaluate_expression htokens session (Nat.le_of_eq hlimit)⟩

end Shading
