import Shading.Proofs.Printing.Term

/-!
# Reading a printed term back

Cutting a printed term at parentheses gives the pieces of `Term.tokens`: at most one
operation on each level, and each operand that is an operation in a group of its own.
An operation between two operands is the only split point of its level
(`gives_binary`), and so is one before its operand (`gives_unary`).  By induction on the
term, resolving the pieces gives the term with its words resolved, and from there on a
source is followed stage by stage.

* `source_print`: reading the text of a term gives the term back.
-/

namespace Shading

open Token (items pieces)

/-- The symbol that an operation is written as. -/
def Operation.symbol (operation : Operation) : Symbol :=
  (Symbol.at? operation.sign).getD ⟨operation.sign, .relational, .between operation⟩

theorem Operation.text_symbol (operation : Operation) :
    operation.symbol.text = operation.sign ∧ operation.symbol ∈ Symbol.table := by
  cases operation <;> decide

theorem Operation.symbol_of_binary {operation : Operation} (h : operation.arity = 2) :
    operation.symbol ∈ Symbol.infixes ∧ operation.symbol.between? = some operation := by
  revert h
  cases operation <;> decide

theorem Operation.symbol_of_unary {operation : Operation} (h : operation.arity = 1) :
    operation.symbol.canLead = true ∧
      ∀ c ∈ operation.sign, Occurrence.isWordChar c = false := by
  revert h
  cases operation <;> decide

namespace Term

/-- A term with its words resolved: each is the variable bound to it, else the literal it
spells, else an unbound name. -/
def value (scope : Scope) : Term → Expr
  | .word w => Operand.ofWord scope w
  | .unary operation input => .unary operation (input.value scope)
  | .binary operation left right => .binary operation (left.value scope) (right.value scope)

/-! ## Pieces -/

/-- The operand that a term with these tokens is. -/
def asOperand (tokens : List Token) : Term → Token
  | .word w => .word w
  | _ => .group tokens

/-- The tokens of an operand behind a sign, from which a word is not set apart. -/
def led (sign : Text) : Token → List Token
  | .word w => [.word (sign ++ w)]
  | token => [.word sign, token]

/-- The tokens of a printed term, as far as cutting at parentheses tells them apart. -/
def tokens : Term → List Token
  | .word w => [.word w]
  | .unary operation input => led operation.sign (input.asOperand input.tokens)
  | .binary operation left right =>
      [left.asOperand left.tokens, .symbol operation.symbol, right.asOperand right.tokens]

theorem isSymbol_asOperand (term : Term) (tokens : List Token) :
    (term.asOperand tokens).isSymbol = false := by
  cases term <;> rfl

theorem isWord_asOperand {term : Term} (h : term.Valid) (tokens : List Token) :
    ∀ w, term.asOperand tokens = .word w → Token.IsWord w := by
  intro w heq
  cases term with
  | word w' =>
      obtain rfl : w' = w := by simpa [asOperand] using heq
      exact h.toIsWord
  | unary operation input => simp [asOperand] at heq
  | binary operation left right => simp [asOperand] at heq

theorem tight_asOperand {term : Term} (h : term.Valid) (tokens : List Token) :
    ∀ w, term.asOperand tokens = .word w → Text.Tight w ∧ w ≠ [] := by
  intro w heq
  have hword := isWord_asOperand h tokens w heq
  exact ⟨Token.tight_of_isWord hword, hword.ne_nil⟩

theorem headTight_asOperand {term : Term} (h : term.Valid) :
    Token.HeadTight (pieces [term.asOperand term.tokens]) :=
  Token.HeadTight.operand (isSymbol_asOperand term term.tokens) (tight_asOperand h _)
    Token.headTight_nil

theorem headTight_tokens {term : Term} (h : term.Valid) : Token.HeadTight (pieces term.tokens) := by
  cases term with
  | word w => exact headTight_asOperand h
  | unary operation input =>
      have hinput := headTight_asOperand h.2
      have htight := tight_asOperand h.2 input.tokens
      rw [tokens]
      -- A sign and a word are one fragment, and before a group it is one of its own.
      cases hoperand : input.asOperand input.tokens with
      | word w =>
          obtain ⟨hword, hne⟩ := htight w hoperand
          have hled : Text.Tight (operation.sign ++ ([] ++ w)) :=
            (tight_sign operation).append hword (sign_ne_nil operation) hne []
          exact Token.HeadTight.join hled (by simp [hne]) Token.headTight_nil
      | _ =>
          rw [hoperand] at hinput
          exact Token.HeadTight.join (tight_sign operation) (sign_ne_nil operation) hinput
  | binary operation left right =>
      have hsymbol := Token.HeadTight.symbol (Operation.symbol_of_binary h.1).1
        (headTight_asOperand h.2.2)
      exact Token.HeadTight.operand (isSymbol_asOperand left left.tokens)
        (tight_asOperand h.2.1 _) hsymbol

/-- Reading an operand of a printed term. -/
theorem readsAs_asOperand {term : Term} (h : term.Valid) {limit : Nat}
    (hreads : Token.Reads limit term.height term.print (pieces term.tokens)) :
    Brackets.ReadsAs .paren limit (term.height + 1) (enclose term.isWord term.print)
      (term.asOperand term.tokens).push := by
  have hgroup := hreads.group (headTight_tokens h)
  cases term with
  | word w =>
      have hplain : ∀ c ∈ w, Brackets.paren.isPlain c = true := fun c hc => (h.plain c hc).2
      exact (Brackets.readsAs_plain hplain).mono (Nat.zero_le _)
  | unary operation input => exact hgroup
  | binary operation left right => exact hgroup

/-- Cutting a printed term at parentheses. -/
theorem reads_print {term : Term} (h : term.Valid) (limit : Nat) :
    Token.Reads limit term.height term.print (pieces term.tokens) := by
  induction term with
  | word w =>
      have hplain : ∀ c ∈ w, Brackets.paren.isPlain c = true := fun c hc => (h.plain c hc).2
      exact Token.reads_operand rfl (Brackets.readsAs_plain hplain)
  | unary operation input ih =>
      have hinput := readsAs_asOperand h.2 (ih h.2)
      have hsign : ∀ c ∈ operation.sign, Brackets.paren.isPlain c = true :=
        fun c hc => ((sign_spec operation).1 c hc).2.2
      refine ⟨_, ((Brackets.readsAs_plain hsign).mono (Nat.zero_le _)).append hinput,
        fun level => ?_⟩
      rw [tokens]
      cases hoperand : input.asOperand input.tokens with
      | symbol s =>
          have hnot := isSymbol_asOperand input input.tokens
          simp [hoperand] at hnot
      | word w =>
          simp [led, Token.push, pieces, Token.piece, Token.join, Token.attach]
      | group inner =>
          simp [led, Token.push, pieces, Token.piece, Token.join, Token.attach,
            Brackets.Level.pieces_eq, Brackets.Level.pushText]
  | binary operation left right ihleft ihright =>
      have hleft := readsAs_asOperand h.2.1 (ihleft h.2.1)
      have hright := readsAs_asOperand h.2.2 (ihright h.2.2)
      have hheight : left.height + 1 ≤ height (.binary operation left right) ∧
          right.height + 1 ≤ height (.binary operation left right) := by
        simp only [height]
        omega
      have hrest := Token.reads_operand (isSymbol_asOperand right right.tokens)
        (hright.mono hheight.2)
      have hlink := Token.Reads.link (isSymbol_asOperand left left.tokens)
        (Operation.symbol_of_binary h.1).1 (hleft.mono hheight.1) hrest (headTight_asOperand h.2.2)
      rw [(Operation.text_symbol operation).1] at hlink
      exact hlink

theorem paren_cut_print {term : Term} (h : term.Valid) {limit : Nat}
    (hlimit : term.height ≤ limit) :
    Brackets.paren.cut limit term.print = .ok (pieces term.tokens) := by
  obtain ⟨effect, hreads, hpieces⟩ := reads_print h limit
  rw [hreads.cut hlimit, hpieces]
  exact congrArg Except.ok (Token.attach_nil (headTight_tokens h))

/-! ## Values -/

section Values

open Drafting (Gives)

variable (val : List Piece → Expr) {setting : Setting} {levels : Nat}

theorem alternating_singleton {token : Token} (hsymbol : token.isSymbol = false)
    (hword : ∀ w, token = .word w → Token.IsWord w) : Token.Alternating [token] := by
  refine ⟨fun w hw => hword w ?_, fun s hs => ?_, List.isChain_singleton _⟩
  · exact (List.mem_singleton.mp hw).symm
  · rw [← List.mem_singleton.mp hs] at hsymbol
    simp at hsymbol

/-- An operand gives the value of its term, if its group does. -/
theorem gives_asOperand {term : Term} (h : term.Valid) (setting : Setting) (levels : Nat)
    (hval : val (pieces term.tokens) = term.value setting.scope) :
    Gives (Statement.tree setting (.ofItems levels (items val [term.asOperand term.tokens])))
      (some (term.value setting.scope)) := by
  have hgroup := Token.gives_value val term.tokens setting levels
  rw [hval] at hgroup
  cases term with
  | word w => exact Token.gives_word val h.toIsWord setting levels
  | unary operation input => exact hgroup
  | binary operation left right => exact hgroup

/-- Two operands with an operation between them. -/
theorem gives_binary {operation : Operation} (h : operation.arity = 2) {first second : Token}
    (hfirst : Token.Alternating [first]) (hsecond : Token.Alternating [second])
    (hnot : first.isSymbol = false ∧ second.isSymbol = false) {a b : Expr}
    (ha : Gives (Statement.tree setting (.ofItems levels (items val [first]))) (some a))
    (hb : Gives (Statement.tree setting (.ofItems levels (items val [second]))) (some b)) :
    Gives (Statement.tree setting
        (.ofItems (levels + 1) (items val [first, .symbol operation.symbol, second])))
      (some (.binary operation a b)) := by
  obtain ⟨hmember, hbetween⟩ := Operation.symbol_of_binary h
  have halternating : Token.Alternating [first, .symbol operation.symbol, second] := by
    refine ⟨fun w hw => ?_, fun s hs => ?_, by simp [hnot]⟩
    · simp only [List.mem_cons, reduceCtorEq, List.not_mem_nil, or_false, false_or] at hw
      rcases hw with rfl | rfl
      · exact hfirst.isWord w (by simp)
      · exact hsecond.isWord w (by simp)
    · simp only [List.mem_cons, List.not_mem_nil, or_false, Token.symbol.injEq] at hs
      rcases hs with rfl | rfl | rfl
      · exact hfirst.isInfix s (by simp)
      · exact hmember
      · exact hsecond.isInfix s (by simp)
  -- There is nothing to choose from, so ranks play no part.
  have hsplits : Token.splits [first, .symbol operation.symbol, second] =
      [⟨[first], operation.symbol, [second]⟩] := by
    simp [Token.splits, Token.splitHere_of_not_isSymbol hnot.1,
      Token.splitHere_of_not_isSymbol hnot.2, Token.Split.prepend]
  have hfind := Cut.find?_of_cuts_eq_singleton
    (by rw [Token.cuts_items val halternating, hsplits, List.map_singleton])
  exact Token.gives_cut val hfirst hsecond hfind hbetween ha hb

/-- At the front of its fragment a sign before an operand can be cut at. -/
theorem isSplitPoint_sign {operation : Operation} (h : operation.arity = 1) (after : Text) :
    Occurrence.isSplitPoint ⟨[], operation.symbol, after⟩ = true := by
  cases operation with
  | negate => rfl
  | not => rfl
  | _ => simp [Operation.arity, Operation.isUnary] at h

theorem combine_sign {operation : Operation} (h : operation.arity = 1) (after : Text) (a : Expr) :
    Statement.combine setting ⟨[], operation.symbol, after⟩ none (some a) =
      pure (.unary operation a) := by
  cases operation with
  | negate => rfl
  | not => rfl
  | _ => simp [Operation.arity, Operation.isUnary] at h

/-- The split points of a sign and the word behind it. -/
theorem splitPoints_sign {operation : Operation} (h : operation.arity = 1) {w : Text}
    (hquiet : Quiet w) : Occurrence.splitPoints (operation.sign ++ w) =
      [⟨[], operation.symbol, w⟩] := by
  obtain ⟨htext, htable⟩ := Operation.text_symbol operation
  have hscan := Occurrence.pointsFrom_symbol htable hquiet.isSymbolChar_head []
  have hbehind : ∀ c ∈ (operation.sign.reverse ++ []).head?, Occurrence.isWordChar c = false := by
    intro c hc
    have hmem : c ∈ operation.sign := by simpa using List.mem_of_mem_head? hc
    exact (Operation.symbol_of_unary h).2 c hmem
  -- The sign of an exponent in the word is passed over as it would be without a sign before it.
  have hpass := Occurrence.pointsFrom_quiet hquiet hbehind []
  rw [Occurrence.pointsFrom_nil, List.append_nil w] at hpass
  rw [if_pos (isSplitPoint_sign h w), htext, hpass] at hscan
  exact hscan

/-- A sign before an operand is the only place at which they can be cut. -/
theorem cuts_led {operation : Operation} (h : operation.arity = 1) {token : Token}
    (hsymbol : token.isSymbol = false) (hword : ∀ w, token = .word w → Token.IsWord w) :
    ∃ after right, Cut.cuts (items val (led operation.sign token)) =
        [⟨[], ⟨[], operation.symbol, after⟩, right⟩] ∧
      Item.ofText after ++ right = items val [token] := by
  cases token with
  | symbol s => simp at hsymbol
  | word w =>
      have hw := hword w rfl
      have hpoints := splitPoints_sign h (Token.quiet_of_isWord hw)
      refine ⟨w, [], ?_, ?_⟩
      · simp [led, items, pieces, Token.piece, Token.join, Piece.item, Cut.cuts, hpoints]
      · simp [items, pieces, Token.piece, Token.join, Piece.item, Item.ofText,
          Text.fragment?_of_tight (Token.tight_of_isWord hw) hw.ne_nil]
  | group inner =>
      have hpoints := splitPoints_sign h (.free (by simp) : Quiet [])
      rw [List.append_nil] at hpoints
      refine ⟨[], [.value (val (pieces inner))], ?_, ?_⟩
      · simp [led, items, pieces, Token.piece, Token.join, Piece.item, Cut.cuts, hpoints]
      · simp [items, pieces, Token.piece, Piece.item, Item.ofText]

/-- An operand with an operation before it. -/
theorem gives_unary {operation : Operation} (h : operation.arity = 1) {token : Token}
    (hsymbol : token.isSymbol = false) (hword : ∀ w, token = .word w → Token.IsWord w) {a : Expr}
    (ha : Gives (Statement.tree setting (.ofItems levels (items val [token]))) (some a)) :
    Gives (Statement.tree setting (.ofItems (levels + 1) (items val (led operation.sign token))))
      (some (.unary operation a)) := by
  obtain ⟨after, right, hcuts, hright⟩ := cuts_led val h hsymbol hword
  have hfind := Cut.find?_of_cuts_eq_singleton hcuts
  -- Nothing is left of the sign, and that is what makes it one before its operand.
  have hnone : Gives (Statement.tree setting (.ofItems levels [])) none := by
    rw [SplitTree.ofItems_of_find? rfl]
    exact Drafting.gives_pure none
  rw [← hright] at ha
  rw [SplitTree.ofItems_succ_of_find? hfind]
  refine Statement.gives_split hnone ha ?_
  rw [combine_sign h]
  exact Drafting.gives_pure _

end Values

theorem eq_of_asOperand {term : Term} {tokens inner : List Token}
    (h : .group inner = term.asOperand tokens) : inner = tokens := by
  cases term with
  | word w => simp [asOperand] at h
  | unary operation input => simpa [asOperand] using h
  | binary operation left right => simpa [asOperand] using h

theorem mem_led {sign : Text} {token : Token} {inner : List Token}
    (h : .group inner ∈ led sign token) : .group inner = token := by
  cases token with
  | word w => simp [led] at h
  | symbol s => simp [led] at h
  | group tokens => simpa [led] using h

/-- Resolving the pieces of a printed term gives the term with its words resolved. -/
theorem gives_within {term : Term} (h : term.Valid) (setting : Setting) {levels : Nat}
    (hlevels : term.height ≤ levels) :
    Drafting.Gives (Statement.within setting levels (pieces term.tokens))
      (some (term.value setting.scope)) := by
  -- What a group gives one level further down is its value.
  let val : List Piece → Expr := fun parts =>
    Drafting.given (Statement.within setting (levels - 1) parts)
  induction term generalizing levels with
  | word w =>
      have hitems : Drafting.Gives (Statement.pieces setting levels (pieces [.word w]))
          (items val [.word w]) :=
        Token.gives_items val (by simp)
      exact hitems.bind (Token.gives_word val h.toIsWord setting (levels + 1))
  | unary operation input ih =>
      rw [height] at hlevels
      have hinput : Drafting.Gives
          (Statement.within setting (levels - 1) (pieces input.tokens)) _ :=
        ih h.2 (by omega)
      have hval : val (pieces input.tokens) = input.value setting.scope :=
        Drafting.given_of_gives hinput
      have hitems : Drafting.Gives
          (Statement.pieces setting levels (pieces (tokens (.unary operation input))))
          (items val (tokens (.unary operation input))) := by
        refine Token.gives_items val fun inner hmem => ⟨by omega, ?_⟩
        rw [eq_of_asOperand (mem_led hmem), hval]
        exact hinput
      have hoperand := gives_asOperand val h.2 setting levels hval
      exact hitems.bind (gives_unary val h.1 (isSymbol_asOperand input input.tokens)
        (isWord_asOperand h.2 input.tokens) hoperand)
  | binary operation left right ihleft ihright =>
      rw [height] at hlevels
      have hleft : Drafting.Gives
          (Statement.within setting (levels - 1) (pieces left.tokens)) _ :=
        ihleft h.2.1 (by omega)
      have hright : Drafting.Gives
          (Statement.within setting (levels - 1) (pieces right.tokens)) _ :=
        ihright h.2.2 (by omega)
      have hleftVal : val (pieces left.tokens) = left.value setting.scope :=
        Drafting.given_of_gives hleft
      have hrightVal : val (pieces right.tokens) = right.value setting.scope :=
        Drafting.given_of_gives hright
      have hitems : Drafting.Gives
          (Statement.pieces setting levels (pieces (tokens (.binary operation left right))))
          (items val (tokens (.binary operation left right))) := by
        refine Token.gives_items val fun inner hmem => ⟨by omega, ?_⟩
        simp only [tokens, List.mem_cons, reduceCtorEq, List.not_mem_nil, or_false,
          false_or] at hmem
        rcases hmem with hmem | hmem
        · rw [eq_of_asOperand hmem, hleftVal]
          exact hleft
        · rw [eq_of_asOperand hmem, hrightVal]
          exact hright
      exact hitems.bind (gives_binary val h.1
        (alternating_singleton (isSymbol_asOperand left _) (isWord_asOperand h.2.1 _))
        (alternating_singleton (isSymbol_asOperand right _) (isWord_asOperand h.2.2 _))
        ⟨isSymbol_asOperand left _, isSymbol_asOperand right _⟩
        (gives_asOperand val h.2.1 setting levels hleftVal)
        (gives_asOperand val h.2.2 setting levels hrightVal))

end Term

/-! ## Sources -/

namespace Session

/-- Reading a printed term as a statement. -/
theorem statement_print {term : Term} (h : term.Valid) (session : Session)
    (hlimit : term.height ≤ session.options.limit) :
    ∃ session', (statement term.print).run session =
        (.ok (some (term.value session.scope)), session') ∧
      session'.store = session.store := by
  obtain ⟨-, htight, hne⟩ := Term.clean_print h
  have hcut := Term.paren_cut_print h hlimit
  have hgives : Drafting.Gives (Statement.value session.setting (pieces term.tokens))
      (some (term.value session.scope)) :=
    Term.gives_within h session.setting hlimit
  obtain ⟨events, hrun⟩ := evaluate_of_gives hgives
  have hnonempty : term.print.isEmpty = false := by simpa using hne
  let result := term.value session.scope
  refine ⟨enterScope result { session with
    events := session.events ++ events ++ [.resolved term.print result] }, ?_, ?_⟩
  · unfold statement
    simp only [Text.trim_of_tight htight, hnonempty, Bool.false_eq_true, if_false]
    rw [Action.run_bind_ok (Action.run_state session), hcut,
      Action.run_bind_ok (Action.run_ofExcept _ session), Action.run_bind_ok hrun]
    rfl
  · simp

/-- Reading the text of a term gives the term back, with its words resolved, and changes no
variable. -/
theorem source_print {term : Term} (h : term.Valid) (session : Session)
    (hlimit : term.height ≤ session.options.limit) :
    ∃ session', (source (term.print ++ [';'])).run session =
        (.ok [term.value session.scope], session') ∧
      session'.store = session.store := by
  have hverbatim := Term.isVerbatim_print h
  have hblocks := Term.curly_cut_print h session.options.limit
  have hstatements : Piece.allStatements [.text (term.print ++ [';'])] = [term.print, []] := by
    simp [Piece.allStatements, Piece.statements, Term.statements_print h]
  obtain ⟨session', hrun, hstore⟩ := statement_print h session hlimit
  refine ⟨session', ?_, hstore⟩
  have hreport : (report (Source.events (term.print ++ [';']))).run session =
      (.ok (), session) := by
    simp [report, hverbatim.events_eq]
  unfold source
  rw [Action.run_bind_ok (Action.run_state session), Action.run_bind_ok hreport, hverbatim.code_eq,
    Action.run_bind_ok (Action.run_ofExcept _ session), hblocks,
    Action.run_bind_ok (Action.run_ofExcept _ session), hstatements, statements,
    Action.run_bind_ok hrun]
  rfl

/-- Signs before a number, before a group and next to an exponent that has a sign. -/
theorem source_print_nested :
    let term : Term := .binary .divide (.unary .negate (.word "1e-5".toList))
      (.unary .not (.binary .notEqualTo (.word ['a']) (.word ['b'])))
    let session : Session :=
      { options := { limit := 3 }
        scope := ⟨[(['a'], 0)]⟩
        store := ⟨#[.single .float (some ['a'])]⟩ }
    term.Valid ∧ term.height = 3 ∧ term.print = "(-1e-5) / (!(a != b))".toList ∧
    ∃ session', (source (term.print ++ [';'])).run session =
        (.ok [term.value session.scope], session') ∧
      session'.store = session.store := by
  intro term session
  have hnumber : Term.IsLeaf "1e-5".toList :=
    ⟨⟨by decide, by decide, Or.inr (by decide +kernel)⟩, by decide⟩
  have ha : Term.IsLeaf ['a'] := ⟨⟨by decide, by decide, Or.inl (by decide)⟩, by decide⟩
  have hb : Term.IsLeaf ['b'] := ⟨⟨by decide, by decide, Or.inl (by decide)⟩, by decide⟩
  have hterm : term.Valid := ⟨rfl, ⟨rfl, hnumber⟩, rfl, rfl, ha, hb⟩
  exact ⟨hterm, rfl, by decide, source_print hterm session (Nat.le_refl 3)⟩

end Session

end Shading
