import Mathlib.Data.List.Chain
import Shading.Proofs.Gives
import Shading.Proofs.Root
import Shading.Proofs.Infix.Syntax

/-!
# The cuts of an infix expression

Once the groups of an expression have values it is a flat statement, `Token.items`.  The
places at which it can be cut are exactly its symbols (`cuts_items`), and a cut leaves the
items of the tokens before the symbol and the items of the tokens after it
(`leftSide_cut`, `rightSide_cut`).  So splitting texts and trimming what is left amounts
to splitting the sequence of tokens, and the pieces of an expression never lose, double or
reorder a token.

The proof goes along the fragments: a run `F` of tokens without groups is one fragment,
in which a scan finds the symbols of `F` (`pointsFrom_spaced`).
-/

namespace Shading

namespace Token

/-! ## Splits of a sequence of tokens -/

/-- Tokens taken apart at a symbol. -/
structure Split where
  left : List Token
  symbol : Symbol
  right : List Token

/-- The same split with more tokens in front. -/
def Split.prepend (front : List Token) (split : Split) : Split :=
  { split with left := front ++ split.left }

/-- The same split with more tokens behind. -/
def Split.append (split : Split) (back : List Token) : Split :=
  { split with right := split.right ++ back }

/-- The split at a token that has `rest` behind it. -/
def splitHere (rest : List Token) : Token → List Split
  | .symbol s => [⟨[], s, rest⟩]
  | _ => []

/-- Every split of a sequence of tokens, in reading order. -/
def splits : List Token → List Split
  | [] => []
  | token :: rest => splitHere rest token ++ (splits rest).map (Split.prepend [token])

@[simp] theorem splitHere_symbol (rest : List Token) (s : Symbol) :
    splitHere rest (.symbol s) = [⟨[], s, rest⟩] := rfl

theorem splitHere_of_not_isSymbol {token : Token} (h : token.isSymbol = false) (rest : List Token) :
    splitHere rest token = [] := by
  cases token with
  | symbol s => simp at h
  | word w => rfl
  | group inner => rfl

theorem splitHere_append (rest back : List Token) (token : Token) :
    splitHere (rest ++ back) token = (splitHere rest token).map (Split.append · back) := by
  cases token <;> simp [splitHere, Split.append]

theorem splits_append (front back : List Token) :
    splits (front ++ back) =
      (splits front).map (Split.append · back) ++ (splits back).map (Split.prepend front) := by
  induction front with
  | nil =>
      have hid : Split.prepend [] = id := rfl
      simp [splits, hid]
  | cons token rest ih =>
      simp [splits, ih, splitHere_append, Split.prepend, Split.append, Function.comp_def]

theorem eq_of_mem_splits {tokens : List Token} {split : Split} (h : split ∈ splits tokens) :
    tokens = split.left ++ .symbol split.symbol :: split.right := by
  induction tokens generalizing split with
  | nil => simp [splits] at h
  | cons token rest ih =>
      rcases List.mem_append.mp h with h | h
      · cases token with
        | symbol s =>
            obtain rfl : split = ⟨[], s, rest⟩ := by simpa [splitHere] using h
            rfl
        | word w => simp [splitHere] at h
        | group inner => simp [splitHere] at h
      · obtain ⟨inner, hinner, rfl⟩ := List.mem_map.mp h
        simp [Split.prepend, ← ih hinner]

theorem splits_eq_nil {tokens : List Token} (h : splits tokens = []) :
    ∀ token ∈ tokens, token.isSymbol = false := by
  induction tokens with
  | nil => simp
  | cons token rest ih =>
      simp only [splits, List.append_eq_nil_iff, List.map_eq_nil_iff] at h
      have hhere : token.isSymbol = false := by
        cases token with
        | symbol s => simp [splitHere] at h
        | word w => rfl
        | group inner => rfl
      simpa [hhere] using ih h.2

/-! ## Fragments -/

/-- Tokens of a chain: operands and symbols take turns. -/
structure Alternating (tokens : List Token) : Prop where
  isWord : ∀ w, .word w ∈ tokens → IsWord w
  isInfix : ∀ s, .symbol s ∈ tokens → s ∈ Symbol.infixes
  alternates : tokens.IsChain fun first second => first.isSymbol ≠ second.isSymbol

theorem Alternating.left {front back : List Token} (h : Alternating (front ++ back)) :
    Alternating front :=
  ⟨fun w hw => h.isWord w (List.mem_append_left _ hw),
    fun s hs => h.isInfix s (List.mem_append_left _ hs),
    (List.isChain_append.mp h.alternates).1⟩

theorem Alternating.right {front back : List Token} (h : Alternating (front ++ back)) :
    Alternating back :=
  ⟨fun w hw => h.isWord w (List.mem_append_right _ hw),
    fun s hs => h.isInfix s (List.mem_append_right _ hs),
    (List.isChain_append.mp h.alternates).2.1⟩

theorem IsExpression.isSymbol_head {tokens : List Token} (h : IsExpression tokens) :
    ∀ token ∈ tokens.head?, token.isSymbol = false := by
  cases h with
  | single h => simpa using isSymbol_of_isOperand h
  | link h _ _ => simpa using isSymbol_of_isOperand h

theorem IsExpression.alternating {tokens : List Token} (h : IsExpression tokens) :
    Alternating tokens := by
  induction h using IsExpression.induct with
  | single h _ =>
      cases h with
      | word h => exact ⟨by simpa using h, by simp, by simp⟩
      | group h => exact ⟨by simp, by simp, by simp⟩
  | @link token s rest h hsymbol hrest _ ih =>
      have hhead := hrest.isSymbol_head
      have hword : ∀ w, .word w ∈ token :: .symbol s :: rest → IsWord w := by
        intro w hw
        rcases List.mem_cons.mp hw with rfl | hw
        · cases h with
          | word h => exact h
        · exact ih.isWord w (by simpa using hw)
      have hmember : ∀ s', .symbol s' ∈ token :: .symbol s :: rest → s' ∈ Symbol.infixes := by
        intro s' hs'
        rcases List.mem_cons.mp hs' with rfl | hs'
        · cases h
        rcases List.mem_cons.mp hs' with heq | hs'
        · obtain rfl : s' = s := by simpa using heq
          exact hsymbol
        · exact ih.isInfix s' hs'
      refine ⟨hword, hmember, ?_⟩
      rw [List.isChain_cons_cons, List.isChain_cons]
      refine ⟨by simp [isSymbol_of_isOperand h], ?_, ih.alternates⟩
      intro next hnext
      simp [hhead next hnext]

/-- The fragment that tokens without groups become. -/
def fragment : List Token → List Piece
  | [] => []
  | token :: rest => [.text (spaced (token :: rest))]

theorem piece_of_not_isGroup {token : Token} (h : token.isGroup = false) :
    token.piece = .text token.text := by
  cases token with
  | word w => simp [piece, text]
  | symbol s => simp [piece, text]
  | group inner => simp [isGroup] at h

/-- A run of tokens without groups is one fragment, and a group ends it. -/
theorem pieces_append {front back : List Token} (hfront : ∀ token ∈ front, token.isGroup = false)
    (hback : ∀ u rest, pieces back ≠ .text u :: rest) :
    pieces (front ++ back) = fragment front ++ pieces back := by
  induction front with
  | nil => rfl
  | cons token rest ih =>
      have hrest := ih fun t ht => hfront t (List.mem_cons_of_mem _ ht)
      rw [List.cons_append, pieces, hrest,
        piece_of_not_isGroup (hfront token (List.mem_cons_self ..))]
      cases rest with
      | nil =>
          rw [fragment, fragment, List.nil_append, spaced]
          unfold join
          split
          next second more heq => exact absurd heq (hback _ _)
          · rfl
      | cons next more => simp [fragment, join, spaced]

theorem pieces_eq_fragment {tokens : List Token} (h : ∀ token ∈ tokens, token.isGroup = false) :
    pieces tokens = fragment tokens := by
  have happend : pieces (tokens ++ []) = fragment tokens ++ pieces [] :=
    pieces_append h (by simp [pieces])
  simpa [pieces] using happend

theorem pieces_append_group {front : List Token} (h : ∀ token ∈ front, token.isGroup = false)
    (inner back : List Token) :
    pieces (front ++ .group inner :: back) =
      fragment front ++ .group (pieces inner) :: pieces back := by
  rw [pieces_append h (by simp [pieces, piece]), pieces, piece, join_group]

/-! ## The split points of a fragment -/

open Occurrence (pointsFrom)

/-- What stands behind a place in a fragment after these tokens and a space each. -/
def behindOf (behind : Text) : List Token → Text
  | [] => behind
  | token :: rest => behindOf (' ' :: (token.text.reverse ++ behind)) rest

/-- What follows a symbol that has these tokens behind it in its fragment. -/
def tailOf : List Token → Text
  | [] => []
  | token :: rest => ' ' :: spaced (token :: rest)

/-- The occurrence of a symbol in a fragment. -/
def Split.occurrence (behind : Text) (split : Split) : Occurrence :=
  ⟨behindOf behind split.left, split.symbol, tailOf split.right⟩

theorem spaced_cons (token : Token) (rest : List Token) :
    spaced (token :: rest) = token.text ++ tailOf rest := by
  cases rest <;> simp [spaced, tailOf]

theorem isSymbolChar_tailOf (tokens : List Token) :
    ∀ c ∈ (tailOf tokens).head?, Symbol.isSymbolChar c = false := by
  have hspace : Symbol.isSymbolChar ' ' = false := by decide
  cases tokens with
  | nil => simp [tailOf]
  | cons token rest => simpa [tailOf] using hspace

theorem pointsFrom_tailOf (behind : Text) {tokens : List Token} (hne : tokens ≠ []) :
    pointsFrom behind (tailOf tokens) = pointsFrom (' ' :: behind) (spaced tokens) := by
  obtain ⟨token, rest, rfl⟩ := List.exists_cons_of_ne_nil hne
  rw [tailOf, Occurrence.pointsFrom_cons (by decide)]

theorem quiet_of_isWord {word : Text} (h : IsWord word) : Quiet word := by
  rcases h.operand with hfree | hliteral
  · exact .free hfree
  · exact quiet_of_literal hliteral

/-- Behind a word and a space, an operator character is out of sight. -/
theorem endsInOperator_of_isWord {word : Text} (h : IsWord word) (behind : Text) :
    Occurrence.endsInOperator (' ' :: (word.reverse ++ behind)) = false := by
  have hquiet := (quiet_of_isWord h).isSymbolChar_getLast
  obtain ⟨front, last, rfl⟩ := List.eq_nil_or_concat word |>.resolve_left h.ne_nil
  have hlast : Text.isBlank last = false := (h.plain last (by simp)).1
  have hsymbol : Symbol.isSymbolChar last = false := hquiet last (by simp)
  simp [Occurrence.endsInOperator, Text.isBlank_space, hlast, hsymbol]

/-- An infix symbol can be split at, if no operator and no exponent reaches up to it. -/
theorem isSplitPoint_of_mem_infixes {s : Symbol} (h : s ∈ Symbol.infixes) {behind after : Text}
    (hspace : ∀ c ∈ behind.head?, c = ' ')
    (hoperator : Occurrence.endsInOperator behind = false) :
    Occurrence.isSplitPoint ⟨behind, s, after⟩ = true := by
  have hexponent : Occurrence.endsInExponent behind = false := by
    cases behind with
    | nil => rfl
    | cons c rest => simp [Occurrence.endsInExponent, hspace c rfl]
  have hrole : s.role ≠ .assign := by
    revert s
    decide
  simp [Occurrence.isSplitPoint, hexponent, hrole, hoperator]

/-- A scan finds nothing in a word. -/
theorem pointsFrom_word {word : Text} (h : IsWord word) {behind : Text}
    (hspace : ∀ c ∈ behind.head?, c = ' ') (after : Text) :
    pointsFrom behind ((Token.word word).text ++ after) =
      pointsFrom ((Token.word word).text.reverse ++ behind) after := by
  have hbehind : ∀ c ∈ behind.head?, Occurrence.isWordChar c = false := by
    intro c hc
    rw [hspace c hc]
    decide
  rw [text]
  exact Occurrence.pointsFrom_quiet (quiet_of_isWord h) hbehind after

/-- A scan finds the symbols of a fragment and nothing else. -/
theorem pointsFrom_spaced {tokens : List Token} (halternating : Alternating tokens)
    (hgroup : ∀ token ∈ tokens, token.isGroup = false) {behind : Text}
    (hspace : ∀ c ∈ behind.head?, c = ' ')
    (hoperator : (∃ token ∈ tokens.head?, token.isSymbol = true) →
      Occurrence.endsInOperator behind = false) :
    pointsFrom behind (spaced tokens) = (splits tokens).map (Split.occurrence behind) := by
  induction tokens generalizing behind with
  | nil => simp [spaced, splits]
  | cons token rest ih =>
      have hrestGroup : ∀ t ∈ rest, t.isGroup = false :=
        fun t ht => hgroup t (List.mem_cons_of_mem _ ht)
      have hrestAlternating : Alternating rest := @Alternating.right [token] rest halternating
      -- The rest is scanned with this token and a space behind it.
      have hrest : ((∃ t ∈ rest.head?, t.isSymbol = true) →
            Occurrence.endsInOperator (' ' :: (token.text.reverse ++ behind)) = false) →
          pointsFrom (token.text.reverse ++ behind) (tailOf rest) =
            (splits rest).map (Split.occurrence (' ' :: (token.text.reverse ++ behind))) := by
        intro hnext
        cases rest with
        | nil => simp [tailOf, splits]
        | cons next more =>
            rw [pointsFrom_tailOf _ (by simp)]
            exact ih hrestAlternating hrestGroup (by simp) hnext
      have hprepend : (splits rest).map (Split.occurrence (' ' :: (token.text.reverse ++ behind))) =
          ((splits rest).map (Split.prepend [token])).map (Split.occurrence behind) := by
        rw [List.map_map]
        rfl
      rw [spaced_cons]
      cases token with
      | word w =>
          have hw : IsWord w := halternating.isWord w (List.mem_cons_self ..)
          have hnext : Occurrence.endsInOperator (' ' :: ((Token.word w).text.reverse ++ behind)) =
              false := by
            rw [text]
            exact endsInOperator_of_isWord hw behind
          rw [pointsFrom_word hw hspace, hrest fun _ => hnext, hprepend]
          rfl
      | symbol s =>
          have hs : s ∈ Symbol.infixes := halternating.isInfix s (List.mem_cons_self ..)
          have hpoint : Occurrence.isSplitPoint ⟨behind, s, tailOf rest⟩ = true :=
            isSplitPoint_of_mem_infixes hs hspace (hoperator ⟨_, rfl, rfl⟩)
          -- An operand follows a symbol, so no second symbol is next.
          have hoperand : ¬ ∃ t ∈ rest.head?, t.isSymbol = true := by
            rintro ⟨t, ht, hsymbol⟩
            have hchain := (List.isChain_cons.mp halternating.alternates).1 t ht
            exact hchain (by rw [hsymbol]; rfl)
          have hpoints := Occurrence.pointsFrom_symbol (mem_table_of_mem_infixes hs)
            (isSymbolChar_tailOf rest) behind
          have hrest' := hrest fun h => absurd h hoperand
          rw [text] at hrest' hprepend ⊢
          rw [hpoints, if_pos hpoint, hrest', hprepend]
          rfl
      | group inner => simp [isGroup] at hgroup

/-! ## The last group before a place and the next group after it -/

/-- The tokens up to the last group. -/
def settled : List Token → List Token
  | [] => []
  | token :: rest => if (token :: rest).any isGroup then token :: settled rest else []

/-- The tokens after the last group. -/
def unsettled : List Token → List Token
  | [] => []
  | token :: rest => if (token :: rest).any isGroup then unsettled rest else token :: rest

/-- The tokens before the first group. -/
def leading (tokens : List Token) : List Token :=
  tokens.takeWhile fun token => !token.isGroup

/-- The tokens from the first group on. -/
def remaining (tokens : List Token) : List Token :=
  tokens.dropWhile fun token => !token.isGroup

theorem any_isGroup_eq_false {tokens : List Token} (h : ∀ token ∈ tokens, token.isGroup = false) :
    tokens.any isGroup = false := by
  simpa using h

theorem settled_of_forall {tokens : List Token} (h : ∀ token ∈ tokens, token.isGroup = false) :
    settled tokens = [] ∧ unsettled tokens = tokens := by
  cases tokens with
  | nil => exact ⟨rfl, rfl⟩
  | cons token rest => simp [settled, unsettled, any_isGroup_eq_false h]

theorem settled_append_group (front inner back : List Token) :
    settled (front ++ .group inner :: back) = front ++ .group inner :: settled back ∧
      unsettled (front ++ .group inner :: back) = unsettled back := by
  induction front with
  | nil => simp [settled, unsettled, isGroup]
  | cons token rest ih =>
      have hany : (token :: (rest ++ .group inner :: back)).any isGroup = true := by
        simp [isGroup]
      simp [settled, unsettled, hany, ih]

/-- Tokens without groups do not settle anything. -/
theorem settled_append {front back : List Token} (h : ∀ token ∈ back, token.isGroup = false) :
    settled (front ++ back) = settled front := by
  induction front with
  | nil => simp [settled, (settled_of_forall h).1]
  | cons token rest ih =>
      have hany : (token :: (rest ++ back)).any isGroup = (token :: rest).any isGroup := by
        simp only [List.any_cons, List.any_append, any_isGroup_eq_false h, Bool.or_false]
      simp only [List.cons_append, settled, hany, ih]

theorem leading_append {front back : List Token} (h : ∀ token ∈ front, token.isGroup = false) :
    leading (front ++ back) = front ++ leading back ∧
      remaining (front ++ back) = remaining back := by
  have hpos : ∀ token ∈ front, (!token.isGroup) = true := by simpa using h
  exact ⟨List.takeWhile_append_of_pos hpos, List.dropWhile_append_of_pos hpos⟩

theorem leading_group (inner back : List Token) :
    leading (.group inner :: back) = [] ∧
      remaining (.group inner :: back) = .group inner :: back := by
  simp [leading, remaining, isGroup]

/-- Tokens are a single fragment, or a fragment, a group and further tokens. -/
theorem exists_fragment (tokens : List Token) : (∀ token ∈ tokens, token.isGroup = false) ∨
    ∃ front inner back, tokens = front ++ .group inner :: back ∧
      ∀ token ∈ front, token.isGroup = false := by
  induction tokens with
  | nil => exact Or.inl (by simp)
  | cons token rest ih =>
      cases token with
      | group inner => exact Or.inr ⟨[], inner, rest, rfl, by simp⟩
      | word w =>
          rcases ih with h | ⟨front, inner, back, rfl, h⟩
          · exact Or.inl (by simpa [isGroup] using h)
          · exact Or.inr ⟨.word w :: front, inner, back, rfl, by simpa [isGroup] using h⟩
      | symbol s =>
          rcases ih with h | ⟨front, inner, back, rfl, h⟩
          · exact Or.inl (by simpa [isGroup] using h)
          · exact Or.inr ⟨.symbol s :: front, inner, back, rfl, by simpa [isGroup] using h⟩

/-! ## All cuts -/

section Items

variable (val : List Piece → Expr)

/-- The flat statement that tokens become. -/
def items (tokens : List Token) : List (Item Expr) :=
  (pieces tokens).map (Piece.item val)

/-- The cut at a split. -/
def Split.cut (split : Split) : Cut Expr where
  left := items val (settled split.left)
  point := ⟨behindOf [] (unsettled split.left), split.symbol, tailOf (leading split.right)⟩
  right := items val (remaining split.right)

theorem items_append_group {front : List Token} (h : ∀ token ∈ front, token.isGroup = false)
    (inner back : List Token) :
    items val (front ++ .group inner :: back) =
      (fragment front).map (Piece.item val) ++ .value (val (pieces inner)) :: items val back := by
  simp [items, pieces_append_group h, Piece.item]

theorem items_of_forall {tokens : List Token} (h : ∀ token ∈ tokens, token.isGroup = false) :
    items val tokens = (fragment tokens).map (Piece.item val) := by
  rw [items, pieces_eq_fragment h]

/-- The cuts inside a leading fragment, and those behind it. -/
theorem cuts_fragment {tokens : List Token} (halternating : Alternating tokens)
    (hgroup : ∀ token ∈ tokens, token.isGroup = false) (rest : List (Item Expr)) :
    Cut.cuts ((fragment tokens).map (Piece.item val) ++ rest) =
      (splits tokens).map (fun split => ⟨[], split.occurrence [], rest⟩) ++
        (Cut.cuts rest).map fun cut =>
          { cut with left := (fragment tokens).map (Piece.item val) ++ cut.left } := by
  cases tokens with
  | nil => simp [fragment, splits]
  | cons token more =>
      have hpoints : pointsFrom [] _ = _ :=
        pointsFrom_spaced halternating hgroup (by simp) fun _ => rfl
      simp only [fragment, List.map_cons, List.map_nil, Piece.item, List.singleton_append, Cut.cuts,
        Occurrence.splitPoints_eq, hpoints, List.map_map]
      rfl

/-- A cut in a fragment that ends where `back` begins. -/
theorem cut_append {tokens back : List Token} (hgroup : ∀ token ∈ tokens, token.isGroup = false)
    (hleading : leading back = []) (hremaining : remaining back = back) {split : Split}
    (hsplit : split ∈ splits tokens) :
    (split.append back).cut val = ⟨[], split.occurrence [], items val back⟩ := by
  have heq := eq_of_mem_splits hsplit
  have hleft : ∀ token ∈ split.left, token.isGroup = false :=
    fun t ht => hgroup t (by rw [heq]; exact List.mem_append_left _ ht)
  have hright : ∀ token ∈ split.right, token.isGroup = false :=
    fun t ht => hgroup t (by rw [heq]; simp [ht])
  obtain ⟨hlead, hremain⟩ := @leading_append split.right back hright
  obtain ⟨hsettled, hunsettled⟩ := settled_of_forall hleft
  simp [Split.cut, Split.append, Split.occurrence, hlead, hremain, hleading, hremaining, hsettled,
    hunsettled, items, pieces]

/-- A cut behind a fragment and a group. -/
theorem cut_prepend {front : List Token} (hgroup : ∀ token ∈ front, token.isGroup = false)
    (inner : List Token) (split : Split) :
    (split.prepend (front ++ [.group inner])).cut val =
      { split.cut val with
        left := (fragment front).map (Piece.item val) ++
          .value (val (pieces inner)) :: (split.cut val).left } := by
  obtain ⟨hsettled, hunsettled⟩ := settled_append_group front inner split.left
  simp [Split.cut, Split.prepend, hsettled, hunsettled, items_append_group val hgroup]

/-- The places at which an expression can be cut are its symbols. -/
theorem cuts_items {tokens : List Token} (h : Alternating tokens) :
    Cut.cuts (items val tokens) = (splits tokens).map (Split.cut val) := by
  induction hn : tokens.length using Nat.strong_induction_on generalizing tokens with
  | _ n ih =>
    -- One fragment, or a fragment and a group with the induction hypothesis for what is behind it.
    rcases exists_fragment tokens with hgroup | ⟨front, inner, back, rfl, hgroup⟩
    · have hcuts := cuts_fragment val h hgroup []
      rw [List.append_nil, ← items_of_forall val hgroup] at hcuts
      rw [hcuts, Cut.cuts, List.map_nil, List.append_nil]
      refine List.map_congr_left fun split hsplit => ?_
      have hcut : (split.append []).cut val = _ := cut_append val hgroup rfl rfl hsplit
      have hid : split.append [] = split := by
        simp [Split.append]
      rw [hid] at hcut
      exact hcut.symm
    · have hback : Cut.cuts (items val back) = (splits back).map (Split.cut val) :=
        ih back.length (by simp [← hn]; omega) (@Alternating.right [.group inner] back h.right) rfl
      have hcuts := cuts_fragment val h.left hgroup (.value (val (pieces inner)) :: items val back)
      have hsplits : splits (front ++ .group inner :: back) =
          (splits front).map (Split.append · (.group inner :: back)) ++
            (splits back).map (Split.prepend (front ++ [.group inner])) := by
        rw [splits_append, splits]
        simp [splitHere, Function.comp_def, Split.prepend]
      rw [items_append_group val hgroup, hcuts, hsplits, List.map_append]
      congr 1
      · rw [List.map_map]
        refine List.map_congr_left fun split hsplit => ?_
        obtain ⟨hleading, hremaining⟩ := leading_group inner back
        have hcut := cut_append val hgroup hleading hremaining hsplit
        rw [Function.comp_apply, hcut]
        simp [items, pieces, piece, Piece.item]
      · rw [Cut.cuts, hback, List.map_map, List.map_map, List.map_map]
        refine List.map_congr_left fun split _ => ?_
        rw [Function.comp_apply, Function.comp_apply, Function.comp_apply, cut_prepend val hgroup]
        rfl

/-! ## Both sides of a cut -/

theorem behindOf_nil {tokens : List Token} (hne : tokens ≠ []) (behind : Text) :
    (behindOf behind tokens).reverse = behind.reverse ++ (spaced tokens ++ [' ']) := by
  induction tokens generalizing behind with
  | nil => exact absurd rfl hne
  | cons token rest ih =>
      cases rest with
      | nil => simp [behindOf, spaced]
      | cons next more =>
          rw [behindOf, ih (by simp), spaced]
          simp

theorem tight_spaced {tokens : List Token} (h : Alternating tokens)
    (hgroup : ∀ token ∈ tokens, token.isGroup = false) (hne : tokens ≠ []) :
    Text.Tight (spaced tokens) ∧ spaced tokens ≠ [] := by
  induction tokens with
  | nil => exact absurd rfl hne
  | cons token rest ih =>
      have htoken : Text.Tight token.text ∧ token.text ≠ [] := by
        cases token with
        | word w =>
            have hw := h.isWord w (List.mem_cons_self ..)
            rw [text]
            exact ⟨tight_of_isWord hw, hw.ne_nil⟩
        | symbol s =>
            have hs := h.isInfix s (List.mem_cons_self ..)
            rw [text]
            exact ⟨tight_text hs, Symbol.text_ne_nil (mem_table_of_mem_infixes hs)⟩
        | group inner => simp [isGroup] at hgroup
      cases rest with
      | nil => simpa [spaced] using htoken
      | cons next more =>
          obtain ⟨htight, hne'⟩ := ih (@Alternating.right [token] _ h)
            (fun t ht => hgroup t (List.mem_cons_of_mem _ ht)) (by simp)
          rw [spaced]
          exact ⟨htoken.1.append htight htoken.2 hne' [' '], by simp⟩

/-- The item of a fragment, whichever blanks are left around it by a cut. -/
theorem ofText_spaced {tokens : List Token} (h : Alternating tokens)
    (hgroup : ∀ token ∈ tokens, token.isGroup = false) :
    Item.ofText (behindOf [] tokens).reverse = (fragment tokens).map (Piece.item val) ∧
      Item.ofText (tailOf tokens) = (fragment tokens).map (Piece.item val) := by
  cases tokens with
  | nil => exact ⟨rfl, rfl⟩
  | cons token rest =>
      obtain ⟨htight, hne⟩ := tight_spaced h hgroup (by simp)
      rw [behindOf_nil (by simp)]
      simp [Item.ofText, tailOf, fragment, Piece.item, Text.fragment?_of_tight htight hne]

theorem items_settled (tokens : List Token) :
    items val tokens =
        items val (settled tokens) ++ (fragment (unsettled tokens)).map (Piece.item val) ∧
      (∀ token ∈ unsettled tokens, token.isGroup = false) ∧
      tokens = settled tokens ++ unsettled tokens := by
  induction hn : tokens.length using Nat.strong_induction_on generalizing tokens with
  | _ n ih =>
    rcases exists_fragment tokens with hgroup | ⟨front, inner, back, rfl, hgroup⟩
    · obtain ⟨hsettled, hunsettled⟩ := settled_of_forall hgroup
      rw [hsettled, hunsettled]
      exact ⟨items_of_forall val hgroup, hgroup, rfl⟩
    · obtain ⟨hsettled, hunsettled⟩ := settled_append_group front inner back
      obtain ⟨hitems, hfree, happend⟩ := ih back.length (by simp [← hn]; omega) back rfl
      rw [hsettled, hunsettled]
      refine ⟨?_, hfree, ?_⟩
      · rw [items_append_group val hgroup, items_append_group val hgroup, hitems]
        simp
      · simpa using happend

theorem items_leading (tokens : List Token) :
    items val tokens =
        (fragment (leading tokens)).map (Piece.item val) ++ items val (remaining tokens) ∧
      (∀ token ∈ leading tokens, token.isGroup = false) ∧
      tokens = leading tokens ++ remaining tokens := by
  refine ⟨?_, ?_, List.takeWhile_append_dropWhile.symm⟩
  · rcases exists_fragment tokens with hgroup | ⟨front, inner, back, rfl, hgroup⟩
    · obtain ⟨hlead, hremain⟩ := @leading_append tokens [] hgroup
      simp only [List.append_nil] at hlead hremain
      rw [hlead, hremain, items_of_forall val hgroup]
      simp [leading, remaining, items, pieces]
    · obtain ⟨hlead, hremain⟩ := @leading_append front (.group inner :: back) hgroup
      obtain ⟨hlead', hremain'⟩ := leading_group inner back
      rw [hlead, hremain, hlead', hremain', List.append_nil, items_append_group val hgroup]
      simp [items, pieces, piece, Piece.item]
  · intro token htoken
    simpa using List.all_eq_true.mp List.all_takeWhile token htoken

/-- Before a cut stand the items of the tokens before its symbol. -/
theorem leftSide_cut {split : Split} (h : Alternating split.left) :
    (split.cut val).leftSide = items val split.left := by
  obtain ⟨hitems, hfree, happend⟩ := items_settled val split.left
  rw [happend] at h
  rw [hitems, Cut.leftSide, Split.cut, Occurrence.before, (ofText_spaced val h.right hfree).1]

/-- After a cut stand the items of the tokens after its symbol. -/
theorem rightSide_cut {split : Split} (h : Alternating split.right) :
    (split.cut val).rightSide = items val split.right := by
  obtain ⟨hitems, hfree, happend⟩ := items_leading val split.right
  rw [happend] at h
  rw [hitems, Cut.rightSide, Split.cut, (ofText_spaced val h.left hfree).2]

/-! ## Resolving tokens -/

open Drafting (Gives)

variable {setting : Setting} {levels : Nat}

theorem exists_of_group_mem_pieces {tokens : List Token} {parts : List Piece}
    (h : .group parts ∈ pieces tokens) : ∃ inner, .group inner ∈ tokens ∧ parts = pieces inner := by
  induction tokens with
  | nil => simp [pieces] at h
  | cons token rest ih =>
      have hjoin : ∀ u, Piece.group parts ∈ join (.text u) (pieces rest) →
          .group parts ∈ pieces rest := by
        intro u hmem
        unfold join at hmem
        split at hmem <;> simp_all
      cases token with
      | word w =>
          obtain ⟨inner, hinner, heq⟩ := ih (hjoin w (by simpa [pieces, piece] using h))
          exact ⟨inner, List.mem_cons_of_mem _ hinner, heq⟩
      | symbol s =>
          obtain ⟨inner, hinner, heq⟩ := ih (hjoin s.text (by simpa [pieces, piece] using h))
          exact ⟨inner, List.mem_cons_of_mem _ hinner, heq⟩
      | group inner =>
          have hor : parts = pieces inner ∨ .group parts ∈ pieces rest := by
            simpa [pieces, piece] using h
          rcases hor with heq | hmem
          · exact ⟨inner, List.mem_cons_self .., heq⟩
          · obtain ⟨inner', hinner, heq⟩ := ih hmem
            exact ⟨inner', List.mem_cons_of_mem _ hinner, heq⟩

/-- Tokens become their items, if every group among them gives its value. -/
theorem gives_items {tokens : List Token} (h : ∀ inner, .group inner ∈ tokens →
      0 < levels ∧ Gives (Statement.within setting (levels - 1) (pieces inner))
        (some (val (pieces inner)))) :
    Gives (Statement.pieces setting levels (pieces tokens)) (items val tokens) := by
  refine Statement.gives_pieces val fun parts hparts => ?_
  obtain ⟨inner, hmem, rfl⟩ := exists_of_group_mem_pieces hparts
  obtain ⟨hpos, hgives⟩ := h inner hmem
  obtain ⟨levels, rfl⟩ : ∃ n, levels = n + 1 := ⟨levels - 1, by omega⟩
  exact Statement.gives_group hgives

theorem read_of_isWord {w : Text} (h : IsWord w) (scope : Scope) :
    Operand.read scope w = .expr (Operand.ofWord scope w) := by
  have htrim : Text.trim w = w := Text.trim_of_tight (tight_of_isWord h)
  have hwords : ¬ 1 < (Text.words w).length := by
    have hle := Text.length_words_of_forall fun c hc => (h.plain c hc).1
    omega
  simp only [Operand.read, htrim, if_neg hwords]

/-- A word alone is read as an operand. -/
theorem gives_word {w : Text} (h : IsWord w) (setting : Setting) (levels : Nat) :
    Gives (Statement.tree setting (.ofItems levels (items val [.word w])))
      (some (Operand.ofWord setting.scope w)) := by
  have hfind : Cut.find? (items val [.word w]) = none := by
    rw [Cut.find?_eq_none, cuts_items val (IsExpression.single (.word h)).alternating]
    rfl
  rw [SplitTree.ofItems_of_find? hfind]
  exact Statement.gives_leaf (Statement.gives_item (read_of_isWord h setting.scope))

/-- A group alone gives its value. -/
theorem gives_value (inner : List Token) (setting : Setting) (levels : Nat) :
    Gives (Statement.tree setting (.ofItems levels (items val [.group inner])))
      (some (val (pieces inner))) := by
  have hitems : items val [.group inner] = [.value (val (pieces inner))] := by
    simp [items, pieces, piece, Piece.item]
  rw [hitems, SplitTree.ofItems_of_find? rfl]
  exact Statement.gives_leaf (Drafting.gives_pure _)

/-- A level that splits at an infix symbol gives the operation of its sides. -/
theorem gives_cut {tokens left right : List Token} {s : Symbol} (hleft : Alternating left)
    (hright : Alternating right)
    (hfind : Cut.find? (items val tokens) = some (Split.cut val ⟨left, s, right⟩))
    {operation : Operation} (hs : s.between? = some operation) {a b : Expr}
    (ha : Gives (Statement.tree setting (.ofItems levels (items val left))) (some a))
    (hb : Gives (Statement.tree setting (.ofItems levels (items val right))) (some b)) :
    Gives (Statement.tree setting (.ofItems (levels + 1) (items val tokens)))
      (some (.binary operation a b)) := by
  rw [SplitTree.ofItems_succ_of_find? hfind, leftSide_cut val hleft, rightSide_cut val hright]
  refine Statement.gives_split ha hb ?_
  rw [Statement.combine_between hs]
  exact Drafting.gives_pure _

end Items

end Token

end Shading
