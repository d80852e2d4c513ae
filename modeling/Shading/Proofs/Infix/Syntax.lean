import Shading.Proofs.Word
import Shading.Proofs.Reading

/-!
# Infix expressions

An infix expression is a chain of operands joined by infix symbols, with one space on
each side of every symbol.  An operand is a word or an expression between parentheses.
Expressions are sequences of `Token`s, and `IsExpression` is their grammar.

`cut_spaced` says what cutting at parentheses makes of the text of an expression: each
group becomes a piece, and what stands between groups becomes one fragment.  This is
`Token.pieces`, which joins neighbouring words and symbols by a space.
-/

namespace Shading

/-- The symbols that stand between two operands: all but `!` and `=`. -/
def Symbol.infixes : List Symbol :=
  table.filter fun symbol => symbol.text != ['!'] && symbol.text != ['=']

example : Symbol.infixes.length = 16 := by decide

/-- A word, a symbol, or tokens between parentheses. -/
inductive Token where
  | word (text : Text)
  | symbol (symbol : Symbol)
  | group (inner : List Token)
  deriving Repr

namespace Token

/-! ## Text, size and depth -/

mutual

/-- The text of a token. -/
def text : Token → Text
  | .word w => w
  | .symbol s => s.text
  | .group inner => '(' :: (spaced inner ++ [')'])

/-- The texts of tokens, with one space between neighbours. -/
def spaced : List Token → Text
  | [] => []
  | [token] => token.text
  | token :: next :: rest => token.text ++ ' ' :: spaced (next :: rest)

end

mutual

/-- The number of symbols in a token, at every depth. -/
def symbolCount : Token → Nat
  | .word _ => 0
  | .symbol _ => 1
  | .group inner => totalSymbols inner

/-- The number of symbols in tokens, at every depth. -/
def totalSymbols : List Token → Nat
  | [] => 0
  | token :: rest => token.symbolCount + totalSymbols rest

end

mutual

/-- How deep parentheses nest in a token. -/
def depth : Token → Nat
  | .word _ => 0
  | .symbol _ => 0
  | .group inner => nesting inner + 1

/-- How deep parentheses nest in tokens. -/
def nesting : List Token → Nat
  | [] => 0
  | token :: rest => max token.depth (nesting rest)

end

/-- Whether a token is a symbol. -/
def isSymbol : Token → Bool
  | .symbol _ => true
  | _ => false

@[simp] theorem isSymbol_symbol (s : Symbol) : (symbol s).isSymbol = true := rfl

/-- Whether a token stands between parentheses. -/
def isGroup : Token → Bool
  | .group _ => true
  | _ => false

/-! ## Grammar -/

/-- A word that can be an operand: not empty, without blanks, quotes and parentheses, and
without operator characters unless it is a literal. -/
structure IsWord (word : Text) : Prop where
  ne_nil : word ≠ []
  plain : ∀ c ∈ word, Text.isBlank c = false ∧ Brackets.paren.isPlain c = true
  operand : (∀ c ∈ word, Symbol.isSymbolChar c = false) ∨ (Literal.ofToken? word).isSome = true

mutual

/-- Operands joined by infix symbols. -/
inductive IsExpression : List Token → Prop
  | single {token : Token} (h : IsOperand token) : IsExpression [token]
  | link {token : Token} {symbol : Symbol} {rest : List Token} (h : IsOperand token)
      (hsymbol : symbol ∈ Symbol.infixes) (hrest : IsExpression rest) :
      IsExpression (token :: .symbol symbol :: rest)

/-- A word, or an expression between parentheses. -/
inductive IsOperand : Token → Prop
  | word {text : Text} (h : IsWord text) : IsOperand (.word text)
  | group {inner : List Token} (h : IsExpression inner) : IsOperand (.group inner)

end

/-- Induction on expressions: along the chain, and into the operands that are groups. -/
@[elab_as_elim]
theorem IsExpression.induct {motive : (tokens : List Token) → IsExpression tokens → Prop}
    (single : ∀ {token : Token} (h : IsOperand token),
      (∀ inner (hinner : IsExpression inner), token = .group inner → motive inner hinner) →
      motive [token] (.single h))
    (link : ∀ {token : Token} {symbol : Symbol} {rest : List Token} (h : IsOperand token)
      (hsymbol : symbol ∈ Symbol.infixes) (hrest : IsExpression rest),
      (∀ inner (hinner : IsExpression inner), token = .group inner → motive inner hinner) →
      motive rest hrest → motive (token :: .symbol symbol :: rest) (.link h hsymbol hrest))
    {tokens : List Token} (h : IsExpression tokens) : motive tokens h :=
  @IsExpression.rec motive
    (fun token _ => ∀ inner (hinner : IsExpression inner), token = .group inner →
      motive inner hinner)
    (fun h ih => single h ih)
    (fun h hsymbol hrest ih ihrest => link h hsymbol hrest ih ihrest)
    (fun _ _ _ heq => Token.noConfusion heq)
    (fun _ ih _ hinner heq => by cases heq; exact ih)
    tokens h

theorem isSymbol_of_isOperand {token : Token} (h : IsOperand token) : token.isSymbol = false := by
  cases h <;> rfl

theorem IsExpression.ne_nil {tokens : List Token} (h : IsExpression tokens) : tokens ≠ [] := by
  cases h <;> simp

/-- Both sides of a symbol of an expression are expressions. -/
theorem IsExpression.split : ∀ {left right : List Token} {s : Symbol},
    IsExpression (left ++ .symbol s :: right) → IsExpression left ∧ IsExpression right
  | [], _, _, h => by
      cases h with
      | single h => cases h
      | link h _ _ => cases h
  | [_], _, _, h => by
      cases h with
      | link h _ hrest => exact ⟨.single h, hrest⟩
  | _ :: _ :: _, _, _, h => by
      cases h with
      | link h hsymbol hrest =>
          obtain ⟨hleft, hright⟩ := IsExpression.split hrest
          exact ⟨.link h hsymbol hleft, hright⟩

/-! ## Pieces -/

/-- Puts a piece in front of others; two fragments become one, with a space between them. -/
def join : Piece → List Piece → List Piece
  | .text first, .text second :: rest => .text (first ++ ' ' :: second) :: rest
  | piece, rest => piece :: rest

mutual

/-- The piece that a token is. -/
def piece : Token → Piece
  | .word w => .text w
  | .symbol s => .text s.text
  | .group inner => .group (pieces inner)

/-- The pieces that tokens become: groups, and the fragments between them. -/
def pieces : List Token → List Piece
  | [] => []
  | token :: rest => join token.piece (pieces rest)

end

@[simp] theorem join_group (inner rest : List Piece) :
    join (.group inner) rest = .group inner :: rest := by
  simp [join]

theorem tight_of_isWord {word : Text} (h : IsWord word) : Text.Tight word :=
  Text.tight_of_forall fun c hc => (h.plain c hc).1

theorem mem_table_of_mem_infixes {s : Symbol} (h : s ∈ Symbol.infixes) : s ∈ Symbol.table :=
  (List.mem_filter.mp h).1

theorem tight_text {s : Symbol} (h : s ∈ Symbol.infixes) : Text.Tight s.text := by
  refine Text.tight_of_forall ?_
  revert s
  decide

theorem isPlain_text {s : Symbol} (h : s ∈ Symbol.infixes) :
    ∀ c ∈ s.text, Brackets.paren.isPlain c = true := by
  revert s
  decide

/-- A leading fragment that is neither empty nor blank at an end. -/
def HeadTight (pieces : List Piece) : Prop :=
  ∀ u rest, pieces = .text u :: rest → Text.Tight u ∧ u ≠ []

theorem HeadTight.join {u : Text} (hu : Text.Tight u) (hne : u ≠ []) {rest : List Piece}
    (h : HeadTight rest) : HeadTight (join (.text u) rest) := by
  intro v more heq
  unfold Token.join at heq
  split at heq
  next first second rest' hfirst =>
    obtain rfl : u = first := by simpa using hfirst
    obtain ⟨htight, hne'⟩ := h second rest' rfl
    obtain ⟨rfl, -⟩ : u ++ ' ' :: second = v ∧ rest' = more := by simpa using heq
    exact ⟨hu.append htight hne hne' [' '], by simp⟩
  · obtain ⟨rfl, -⟩ : u = v ∧ _ := by simpa using heq
    exact ⟨hu, hne⟩

/-- An operand before other pieces. -/
theorem HeadTight.operand {token : Token} (h : token.isSymbol = false)
    (hword : ∀ w, token = .word w → Text.Tight w ∧ w ≠ []) {rest : List Piece}
    (hrest : HeadTight rest) : HeadTight (Token.join token.piece rest) := by
  cases token with
  | symbol s => simp at h
  | word w =>
      obtain ⟨htight, hne⟩ := hword w rfl
      exact HeadTight.join htight hne hrest
  | group inner => simp [HeadTight, piece]

theorem HeadTight.symbol {s : Symbol} (h : s ∈ Symbol.infixes) {rest : List Piece}
    (hrest : HeadTight rest) : HeadTight (Token.join (.text s.text) rest) :=
  HeadTight.join (tight_text h) (Symbol.text_ne_nil (mem_table_of_mem_infixes h)) hrest

theorem headTight_nil : HeadTight [] := by
  simp [HeadTight]

theorem IsOperand.tight {token : Token} (h : IsOperand token) :
    ∀ w, token = .word w → Text.Tight w ∧ w ≠ [] := by
  rintro w rfl
  cases h with
  | word h => exact ⟨tight_of_isWord h, h.ne_nil⟩

/-- The fragment that an expression starts with, if it starts with one. -/
theorem IsExpression.headTight {tokens : List Token} (h : IsExpression tokens) :
    HeadTight (pieces tokens) := by
  induction h using IsExpression.induct with
  | single h _ => exact HeadTight.operand (isSymbol_of_isOperand h) h.tight headTight_nil
  | link h hsymbol _ _ ih =>
      exact HeadTight.operand (isSymbol_of_isOperand h) h.tight (HeadTight.symbol hsymbol ih)

/-! ## Cutting at parentheses -/

open Brackets (Level ReadsAs)

/-- What reading a token does to its level. -/
def push : Token → Level → Level
  | .word w, level => level.pushText w
  | .symbol s, level => level.pushText s.text
  | .group inner, level => level.pushGroup (pieces inner)

/-- The pieces of a level after more pieces were read on it, the first of which continues the
fragment being read if it is one itself. -/
def attach (pending : Text) : List Piece → List Piece
  | .text u :: rest => Piece.ofText (pending ++ u) ++ rest
  | pieces => Piece.ofText pending ++ pieces

theorem attach_nil {pieces : List Piece} (h : HeadTight pieces) : attach [] pieces = pieces := by
  unfold attach
  split
  next u rest =>
    obtain ⟨htight, hne⟩ := h u rest rfl
    simp [Piece.ofText, Text.fragment?_of_tight htight hne]
  · simp

/-- A fragment and a space before other pieces are what joining them gives. -/
theorem attach_append (pending u : Text) (pieces : List Piece) :
    attach (pending ++ (u ++ [' '])) pieces = attach pending (join (.text u) pieces) := by
  unfold attach join
  cases pieces with
  | nil => simp [Piece.ofText, ← List.append_assoc]
  | cons first rest =>
      cases first with
      | text v => simp
      | group inner => simp [Piece.ofText, ← List.append_assoc]

theorem attach_space (u : Text) (hu : Text.Tight u) (hne : u ≠ []) {pieces : List Piece}
    (h : HeadTight pieces) : attach (' ' :: (u ++ [' '])) pieces = join (.text u) pieces := by
  have happend := attach_append [' '] u pieces
  have hjoin := HeadTight.join hu hne h
  rw [List.singleton_append] at happend
  rw [happend]
  cases hp : join (.text u) pieces with
  | nil => rfl
  | cons first rest =>
      cases first with
      | text v =>
          obtain ⟨htight, hne'⟩ := hjoin v rest hp
          simp [attach, Piece.ofText, Text.fragment?_of_tight htight hne']
      | group inner => simp [attach, Piece.ofText]

theorem isPlain_space : Brackets.paren.isPlain ' ' = true := by
  decide

/-- The space, the symbol and the space between two operands. -/
theorem readsAs_symbol {s : Symbol} (h : s ∈ Symbol.infixes) (limit : Nat) :
    ReadsAs .paren limit 0 (' ' :: (s.text ++ [' '])) (·.pushText (' ' :: (s.text ++ [' ']))) := by
  refine Brackets.readsAs_plain fun c hc => ?_
  simp only [List.mem_cons, List.mem_append, List.not_mem_nil, or_false] at hc
  rcases hc with rfl | hc | rfl
  · exact isPlain_space
  · exact isPlain_text h c hc
  · exact isPlain_space

/-- The pieces of a level on which an operand, a symbol and then more pieces were read. -/
theorem attach_operand {token : Token} (h : token.isSymbol = false) {s : Symbol}
    (hsymbol : s ∈ Symbol.infixes) {rest : List Piece} (hrest : HeadTight rest) (level : Level) :
    ((token.push level).pushText (' ' :: (s.text ++ [' ']))).done.reverse ++
        attach ((token.push level).pushText (' ' :: (s.text ++ [' ']))).pending.reverse rest =
      level.done.reverse ++
        attach level.pending.reverse (join token.piece (join (.text s.text) rest)) := by
  cases token with
  | symbol s => simp at h
  | word w =>
      -- The fragment being read goes on behind the symbol.
      rw [piece, push, Level.pushText_pushText, ← attach_append, ← attach_append]
      simp [Level.pushText]
  | group inner =>
      -- The group ends the fragment, and the symbol starts a new one.
      have hspace := attach_space s.text (tight_text hsymbol)
        (Symbol.text_ne_nil (mem_table_of_mem_infixes hsymbol)) hrest
      simp [push, piece, attach, Level.pushText, Level.pieces_eq, ← hspace]

/-- Reading a text makes it pieces of the level it is read on. -/
def Reads (limit depth : Nat) (text : Text) (pieces : List Piece) : Prop :=
  ∃ effect, ReadsAs .paren limit depth text effect ∧ ∀ level, (effect level).pieces =
    level.done.reverse ++ attach level.pending.reverse pieces

variable {limit depth : Nat}

/-- Reading a text between parentheses. -/
theorem Reads.group {text : Text} {inner : List Token} (h : Reads limit depth text (pieces inner))
    (hhead : HeadTight (pieces inner)) :
    ReadsAs .paren limit (depth + 1) ('(' :: (text ++ [')'])) (Token.group inner).push := by
  obtain ⟨effect, hreads, hpieces⟩ := h
  have hgroup := hreads.group (by decide) (by decide) (by decide)
  have heffect : (effect {}).pieces = pieces inner := by
    rw [hpieces]
    exact attach_nil hhead
  rw [heffect] at hgroup
  exact hgroup

/-- Reading an operand that nothing follows. -/
theorem reads_operand {token : Token} (h : token.isSymbol = false) {text : Text}
    (htoken : ReadsAs .paren limit depth text token.push) :
    Reads limit depth text (pieces [token]) := by
  refine ⟨token.push, htoken, fun level => ?_⟩
  cases token with
  | symbol s => simp at h
  | word w => simp [push, pieces, piece, join, attach]
  | group inner => simp [push, pieces, piece, attach, Level.pieces_eq]

/-- Reading an operand, a symbol and what follows. -/
theorem Reads.link {token : Token} (h : token.isSymbol = false) {s : Symbol}
    (hsymbol : s ∈ Symbol.infixes) {text text' : Text}
    (htoken : ReadsAs .paren limit depth text token.push) {rest : List Token}
    (hrest : Reads limit depth text' (pieces rest)) (hhead : HeadTight (pieces rest)) :
    Reads limit depth (text ++ (' ' :: (s.text ++ [' ']) ++ text'))
      (pieces (token :: .symbol s :: rest)) := by
  obtain ⟨effect, hreads, hpieces⟩ := hrest
  refine ⟨_, htoken.append (((readsAs_symbol hsymbol limit).mono (Nat.zero_le _)).append hreads),
    fun level => ?_⟩
  rw [Function.comp_apply, Function.comp_apply, hpieces]
  exact attach_operand h hsymbol hhead level

theorem IsOperand.readsAs {token : Token} (h : IsOperand token)
    (hinner : ∀ inner, IsExpression inner → token = .group inner →
      Reads limit (nesting inner) (spaced inner) (pieces inner)) :
    ReadsAs .paren limit token.depth token.text token.push := by
  cases h with
  | word h =>
      rw [Token.depth, text]
      exact Brackets.readsAs_plain fun c hc => (h.plain c hc).2
  | @group inner h =>
      rw [Token.depth, text]
      exact (hinner inner h rfl).group h.headTight

theorem spaced_link (token : Token) (s : Symbol) {rest : List Token} (hne : rest ≠ []) :
    spaced (token :: .symbol s :: rest) =
      token.text ++ (' ' :: (s.text ++ [' ']) ++ spaced rest) := by
  obtain ⟨next, more, rfl⟩ := List.exists_cons_of_ne_nil hne
  simp [spaced, text]

theorem Reads.mono {text : Text} {parts : List Piece} (h : Reads limit depth text parts)
    {more : Nat}
    (hle : depth ≤ more) : Reads limit more text parts := by
  obtain ⟨effect, hreads, hpieces⟩ := h
  exact ⟨effect, hreads.mono hle, hpieces⟩

/-- Reading an expression. -/
theorem IsExpression.reads {tokens : List Token} (h : IsExpression tokens) (limit : Nat) :
    Reads limit (nesting tokens) (spaced tokens) (pieces tokens) := by
  induction h using IsExpression.induct with
  | @single token h hinner =>
      have hread := reads_operand (isSymbol_of_isOperand h) (h.readsAs hinner)
      simpa [nesting, spaced] using hread
  | @link token s rest h hsymbol hrest hinner ih =>
      have hdepth : nesting (token :: .symbol s :: rest) = max token.depth (nesting rest) := by
        simp [nesting, Token.depth]
      rw [spaced_link token s hrest.ne_nil, hdepth]
      exact Reads.link (isSymbol_of_isOperand h) hsymbol
        ((h.readsAs hinner).mono (Nat.le_max_left ..)) (ih.mono (Nat.le_max_right ..))
        hrest.headTight

/-- Cutting the text of an expression at parentheses. -/
theorem IsExpression.cut_spaced {tokens : List Token} (h : IsExpression tokens) {limit : Nat}
    (hdepth : nesting tokens ≤ limit) :
    Brackets.paren.cut limit (spaced tokens) = .ok (pieces tokens) := by
  obtain ⟨effect, hreads, hpieces⟩ := h.reads limit
  rw [hreads.cut hdepth, hpieces]
  exact congrArg Except.ok (attach_nil h.headTight)

end Token

end Shading
