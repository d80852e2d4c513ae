import Shading.Proofs.Infix.Cuts

/-!
# The tree of an infix expression

The symbols of one parenthesis level compete for the root.  A higher rank wins; of equal
ranks one in a later fragment wins, a fragment being a stretch without parentheses; within
a fragment the leftmost wins.  `Leads` states this for a symbol and the tokens on its two
sides, and a tree is `Ordered` if it holds at every node.

* `Ordered.unique`: a sequence of tokens has at most one ordered tree.
* `leads_of_find?`: the cut at which a level splits is at the symbol that leads.
* `exists_tree`: an expression has an ordered tree.
-/

namespace Shading

open Token (IsExpression IsOperand)

/-! ## Trees -/

/-- The binary tree of an expression, with its parentheses. -/
inductive Tree where
  | word (text : Text)
  | group (inner : Tree)
  | node (left : Tree) (symbol : Symbol) (right : Tree)
  deriving Repr

/-- A symbol before which `left` stands and after which `right` stands wins over all symbols
of their level. -/
structure Token.Leads (left : List Token) (s : Symbol) (right : List Token) : Prop where
  left_le : ∀ {first o last}, left = first ++ .symbol o :: last → o.rank.level ≤ s.rank.level
  /-- Nothing to its left in the same fragment has its rank. -/
  left_lt : ∀ {first o last}, left = first ++ .symbol o :: last →
    (∀ token ∈ last, token.isGroup = false) → o.rank.level < s.rank.level
  right_le : ∀ {first o last}, right = first ++ .symbol o :: last → o.rank.level ≤ s.rank.level
  /-- Nothing in a later fragment has its rank. -/
  right_lt : ∀ {first o last}, right = first ++ .symbol o :: last →
    (∃ token ∈ first, token.isGroup = true) → o.rank.level < s.rank.level

namespace Tree

/-- The tokens of a tree, from left to right. -/
def inorder : Tree → List Token
  | .word w => [.word w]
  | .group inner => [.group inner.inorder]
  | .node left s right => left.inorder ++ .symbol s :: right.inorder

/-- At every node the symbol wins over those of its level below it. -/
def Ordered : Tree → Prop
  | .word _ => True
  | .group inner => inner.Ordered
  | .node left s right => Token.Leads left.inorder s right.inorder ∧ left.Ordered ∧ right.Ordered

/-! ## Uniqueness -/

theorem isSymbol_of_mem_inorder {tree : Tree} (h : ∃ token ∈ tree.inorder, token.isSymbol = true) :
    ∃ left s right, tree = .node left s right := by
  obtain ⟨token, htoken, hsymbol⟩ := h
  cases tree with
  | word w =>
      obtain rfl : token = .word w := by simpa [inorder] using htoken
      simp [Token.isSymbol] at hsymbol
  | group inner =>
      obtain rfl : token = .group inner.inorder := by simpa [inorder] using htoken
      simp [Token.isSymbol] at hsymbol
  | node left s right => exact ⟨left, s, right, rfl⟩

end Tree

/-- Of two symbols of one level at most one wins. -/
theorem Token.Leads.not_both {front between back : List Token} {s o : Symbol}
    (hs : Token.Leads front s (between ++ .symbol o :: back))
    (ho : Token.Leads (front ++ .symbol s :: between) o back) : False := by
  by_cases hgroup : ∃ token ∈ between, token.isGroup = true
  · have hlt := hs.right_lt rfl hgroup
    have hle := ho.left_le rfl
    omega
  · have hfree : ∀ token ∈ between, token.isGroup = false := by simpa using hgroup
    have hlt := ho.left_lt rfl hfree
    have hle := hs.right_le rfl
    omega

/-- The winning symbol of a level is at one place only. -/
theorem Token.Leads.unique {left left' right right' : List Token} {s s' : Symbol}
    (h : Token.Leads left s right) (h' : Token.Leads left' s' right')
    (heq : left ++ .symbol s :: right = left' ++ .symbol s' :: right') :
    left = left' ∧ s = s' ∧ right = right' := by
  rcases List.append_eq_append_iff.mp heq with ⟨middle, hleft, hright⟩ | ⟨middle, hleft, hright⟩
  · cases middle with
    | nil => simp_all
    | cons token between =>
        obtain ⟨rfl, rfl⟩ : .symbol s = token ∧ right = between ++ .symbol s' :: right' := by
          simpa using hright
        rw [hleft] at h'
        exact (h.not_both h').elim
  · cases middle with
    | nil => simp_all
    | cons token between =>
        obtain ⟨rfl, rfl⟩ : .symbol s' = token ∧ right' = between ++ .symbol s :: right := by
          simpa using hright
        rw [hleft] at h
        exact (h'.not_both h).elim

/-- A sequence of tokens has at most one ordered tree. -/
theorem Tree.Ordered.unique {tree other : Tree} (h : tree.Ordered) (hother : other.Ordered)
    (heq : tree.inorder = other.inorder) : tree = other := by
  induction tree generalizing other with
  | word w =>
      cases other with
      | word w' => simpa [inorder] using heq
      | group inner => simp [inorder] at heq
      | node left s right =>
          have hmem : Token.symbol s ∈ [Token.word w] := by
            rw [inorder] at heq
            rw [heq, inorder]
            simp
          simp at hmem
  | group inner ih =>
      cases other with
      | word w' => simp [inorder] at heq
      | group inner' =>
          have hinner : inner.inorder = inner'.inorder := by simpa [inorder] using heq
          have hordered : inner'.Ordered := hother
          rw [ih h hordered hinner]
      | node left s right =>
          have hmem : Token.symbol s ∈ [Token.group inner.inorder] := by
            rw [inorder] at heq
            rw [heq, inorder]
            simp
          simp at hmem
  | node left s right ihleft ihright =>
      have hsymbol : ∃ token ∈ other.inorder, token.isSymbol = true :=
        ⟨.symbol s, by rw [← heq, inorder]; simp, rfl⟩
      obtain ⟨left', s', right', rfl⟩ := isSymbol_of_mem_inorder hsymbol
      obtain ⟨hleads, hleft, hright⟩ := h
      obtain ⟨hleads', hleft', hright'⟩ := hother
      obtain ⟨hl, rfl, hr⟩ := hleads.unique hleads' heq
      rw [ihleft hleft hleft' hl, ihright hright hright' hr]

/-! ## The root of a level -/

namespace Token

/-- The splits of tokens with a symbol among them: those on its left, at it and on its right. -/
theorem splits_symbol (left : List Token) (s : Symbol) (right : List Token) :
    splits (left ++ .symbol s :: right) =
      (splits left).map (Split.append · (.symbol s :: right)) ++
        ⟨left, s, right⟩ :: (splits right).map (Split.prepend (left ++ [.symbol s])) := by
  rw [splits_append]
  simp [splits, splitHere, Split.prepend, Function.comp_def]

theorem mem_splits (left : List Token) (s : Symbol) (right : List Token) :
    ⟨left, s, right⟩ ∈ splits (left ++ .symbol s :: right) := by
  rw [splits_symbol]
  simp

/-- The splits before a split are those on its left, and the splits after it those on its
right. -/
theorem splits_eq_append {tokens : List Token} {earlier later : List Split} {split : Split}
    (h : splits tokens = earlier ++ split :: later) :
    earlier = (splits split.left).map (Split.append · (.symbol split.symbol :: split.right)) ∧
      later = (splits split.right).map (Split.prepend (split.left ++ [.symbol split.symbol])) := by
  have htokens := eq_of_mem_splits (h ▸ List.mem_append_right earlier (List.mem_cons_self ..))
  rw [htokens, splits_symbol] at h
  -- No other split has as many tokens on its left.
  have hearlier : split ∉
      (splits split.left).map (Split.append · (.symbol split.symbol :: split.right)) := by
    intro hmem
    obtain ⟨c, hc, heq⟩ := List.mem_map.mp hmem
    have hleft := congrArg Split.left heq
    change c.left = split.left at hleft
    have hlength := congrArg List.length (eq_of_mem_splits hc)
    rw [hleft, List.length_append, List.length_cons] at hlength
    omega
  have hlater : split ∉
      (splits split.right).map (Split.prepend (split.left ++ [.symbol split.symbol])) := by
    intro hmem
    obtain ⟨c, -, heq⟩ := List.mem_map.mp hmem
    have hleft := congrArg (fun split => split.left.length) heq
    simp only [Split.prepend, List.length_append, List.length_cons, List.length_nil] at hleft
    omega
  obtain ⟨rfl, -, rfl⟩ := (List.append_cons_inj_of_notMem hearlier hlater).mp h
  exact ⟨rfl, rfl⟩

end Token

/-- Whether an item is the value of a group. -/
def Item.isValue {α : Type} : Item α → Bool
  | .text _ => false
  | .value _ => true

namespace Token

section Root

variable (val : List Piece → Expr)

/-- Each group is one value among the items. -/
theorem countP_items (tokens : List Token) :
    (items val tokens).countP Item.isValue = tokens.countP isGroup := by
  induction tokens with
  | nil => simp [items, pieces]
  | cons token rest ih =>
      have hjoin : ∀ u, ((join (.text u) (pieces rest)).map (Piece.item val)).countP Item.isValue =
          ((pieces rest).map (Piece.item val)).countP Item.isValue := by
        intro u
        cases pieces rest with
        | nil => rfl
        | cons first more => cases first <;> simp [join, Piece.item, Item.isValue]
      rw [items] at ih ⊢
      cases token with
      | word w => simp [pieces, piece, hjoin, ih, isGroup]
      | symbol s => simp [pieces, piece, hjoin, ih, isGroup]
      | group inner =>
          simp [pieces, piece, Piece.item, List.countP_cons, Item.isValue, ih, isGroup]

theorem countP_settled (tokens : List Token) :
    (items val (settled tokens)).countP Item.isValue = tokens.countP isGroup := by
  obtain ⟨-, hfree, happend⟩ := items_settled val tokens
  have hnone : (unsettled tokens).countP isGroup = 0 := by
    rw [List.countP_eq_zero]
    intro token htoken
    simp [hfree token htoken]
  have hcount : tokens.countP isGroup = (settled tokens).countP isGroup := by
    conv_lhs => rw [happend]
    rw [List.countP_append, hnone, Nat.add_zero]
  rw [countP_items, hcount]

theorem onlyLeads_of_mem_infixes {s : Symbol} (h : s ∈ Symbol.infixes) : s.onlyLeads = false := by
  revert s
  decide

/-- Infix symbols weigh what they rank. -/
theorem level_lt_of_weight_lt {o p : Occurrence} (ho : o.symbol ∈ Symbol.infixes)
    (hp : p.symbol ∈ Symbol.infixes) (h : o.weight < p.weight) :
    o.symbol.rank.level < p.symbol.rank.level := by
  simp only [Occurrence.weight, onlyLeads_of_mem_infixes ho, onlyLeads_of_mem_infixes hp] at h
  omega

/-- The cut at which a level splits is at the symbol that wins over the others. -/
theorem leads_of_find? {tokens : List Token} (h : Alternating tokens) {cut : Cut Expr}
    (hfind : Cut.find? (items val tokens) = some cut) :
    ∃ split : Split, tokens = split.left ++ .symbol split.symbol :: split.right ∧
      cut = split.cut val ∧ Leads split.left split.symbol split.right := by
  obtain ⟨earlier, later, hcuts, hroot⟩ := Cut.find?_spec hfind
  rw [cuts_items val h] at hcuts
  obtain ⟨before, rest, hsplits, rfl, hrest⟩ := List.map_eq_append_iff.mp hcuts
  obtain ⟨split, after, rfl, rfl, rfl⟩ := List.map_eq_cons_iff.mp hrest
  have htokens : tokens = split.left ++ .symbol split.symbol :: split.right :=
    eq_of_mem_splits (hsplits ▸ List.mem_append_right before (List.mem_cons_self ..))
  obtain ⟨rfl, rfl⟩ := splits_eq_append hsplits
  have hmember : ∀ s, .symbol s ∈ tokens → s ∈ Symbol.infixes := h.isInfix
  -- Every other symbol has a cut of its own, before the root or after it.
  have hbefore : ∀ {first o last}, split.left = first ++ .symbol o :: last →
      Split.cut val ⟨first, o, last ++ .symbol split.symbol :: split.right⟩ ∈
        ((splits split.left).map (Split.append · (.symbol split.symbol :: split.right))).map
          (Split.cut val) := by
    intro first o last hleft
    refine List.mem_map_of_mem (List.mem_map.mpr ⟨⟨first, o, last⟩, ?_, rfl⟩)
    rw [hleft]
    exact mem_splits first o last
  have hafter : ∀ {first o last}, split.right = first ++ .symbol o :: last →
      Split.cut val ⟨split.left ++ .symbol split.symbol :: first, o, last⟩ ∈
        ((splits split.right).map (Split.prepend (split.left ++ [.symbol split.symbol]))).map
          (Split.cut val) := by
    intro first o last hright
    refine List.mem_map_of_mem (List.mem_map.mpr ⟨⟨first, o, last⟩, ?_, by simp [Split.prepend]⟩)
    rw [hright]
    exact mem_splits first o last
  refine ⟨split, htokens, rfl, ?_, ?_, ?_, ?_⟩
  · intro first o last hleft
    exact hroot.earlier_le _ (hbefore hleft)
  · intro first o last hleft hfree
    have hsame : settled first = settled split.left := by
      rw [hleft, settled_append]
      simpa [isGroup] using hfree
    have hweight := hroot.earlier_lt _ (hbefore hleft) (by simp [Split.cut, hsame])
    exact level_lt_of_weight_lt (hmember o (by simp [htokens, hleft]))
      (hmember split.symbol (by simp [htokens])) hweight
  · intro first o last hright
    exact hroot.later_le _ (hafter hright)
  · intro first o last hright hgroup
    refine hroot.later_lt _ (hafter hright) fun hsame => ?_
    -- The cut behind the group has one more value on its left.
    have hcount := congrArg (List.countP Item.isValue) hsame
    simp only [Split.cut, countP_settled, List.countP_append, List.countP_cons] at hcount
    have hpos : 0 < first.countP isGroup := List.countP_pos_iff.mpr hgroup
    simp only [isGroup] at hcount
    omega

/-- A level without a cut is a single operand. -/
theorem eq_singleton_of_find? {tokens : List Token} (h : IsExpression tokens)
    (hfind : Cut.find? (items val tokens) = none) :
    ∃ token, tokens = [token] ∧ IsOperand token := by
  have hcuts := Cut.find?_eq_none.mp hfind
  rw [cuts_items val h.alternating, List.map_eq_nil_iff] at hcuts
  have hfree := splits_eq_nil hcuts
  cases h with
  | @single token h => exact ⟨token, rfl, h⟩
  | @link token s rest h hsymbol hrest =>
      have hsymbol := hfree (.symbol s) (by simp)
      simp at hsymbol

end Root

end Token

/-! ## Existence -/

namespace Token

theorem IsExpression.isExpression_of_mem {tokens inner : List Token} (h : IsExpression tokens)
    (hinner : .group inner ∈ tokens) : IsExpression inner := by
  induction h using IsExpression.induct with
  | single h _ =>
      obtain rfl := List.mem_singleton.mp hinner
      cases h with
      | group h => exact h
  | link h _ _ _ ih =>
      rcases List.mem_cons.mp hinner with rfl | hinner
      · cases h with
        | group h => exact h
      · exact ih (by simpa using hinner)

/-- Induction on expressions level by level: from the groups of a level to the level. -/
@[elab_as_elim]
theorem IsExpression.levels {motive : (tokens : List Token) → IsExpression tokens → Prop}
    (level : ∀ tokens (h : IsExpression tokens),
      (∀ inner (hinner : .group inner ∈ tokens), motive inner (h.isExpression_of_mem hinner)) →
      motive tokens h)
    {tokens : List Token} (h : IsExpression tokens) : motive tokens h := by
  refine level tokens h ?_
  induction h using IsExpression.induct with
  | @single token htoken hinner =>
      intro inner hmem
      obtain rfl := List.mem_singleton.mp hmem
      cases htoken with
      | group h => exact level inner h (hinner inner h rfl)
  | @link token s rest htoken _ hrest hinner ih =>
      intro inner hmem
      rcases List.mem_cons.mp hmem with rfl | hmem'
      · cases htoken with
        | group h => exact level inner h (hinner inner h rfl)
      · exact ih inner (by simpa using hmem')

end Token

namespace Tree

open Token (splits items)

/-- A level has an ordered tree if its groups have. -/
theorem exists_tree_of_groups {tokens : List Token} (h : IsExpression tokens)
    (hgroups : ∀ inner, .group inner ∈ tokens →
      ∃ tree : Tree, tree.inorder = inner ∧ tree.Ordered) :
    ∃ tree : Tree, tree.inorder = tokens ∧ tree.Ordered := by
  induction hn : tokens.length using Nat.strong_induction_on generalizing tokens with
  | _ n ih =>
    -- Which values the groups have is of no account for the choice of the root.
    cases hfind : Cut.find? (items (fun _ => .name []) tokens) with
    | none =>
        obtain ⟨token, rfl, htoken⟩ := Token.eq_singleton_of_find? _ h hfind
        cases htoken with
        | @word w _ => exact ⟨.word w, rfl, trivial⟩
        | @group inner _ =>
            obtain ⟨tree, rfl, hordered⟩ := hgroups inner (by simp)
            exact ⟨.group tree, rfl, hordered⟩
    | some cut =>
        obtain ⟨split, rfl, -, hleads⟩ := Token.leads_of_find? _ h.alternating hfind
        obtain ⟨hleft, hright⟩ := h.split
        rw [List.length_append, List.length_cons] at hn
        obtain ⟨left, hleftEq, hleftOrdered⟩ := ih _ (by omega) hleft
          (fun inner hinner => hgroups inner (by simp [hinner])) rfl
        obtain ⟨right, hrightEq, hrightOrdered⟩ := ih _ (by omega) hright
          (fun inner hinner => hgroups inner (by simp [hinner])) rfl
        refine ⟨.node left split.symbol right, by rw [inorder, hleftEq, hrightEq], ?_,
          hleftOrdered, hrightOrdered⟩
        rw [hleftEq, hrightEq]
        exact hleads

/-- An expression has an ordered tree. -/
theorem exists_tree {tokens : List Token} (h : IsExpression tokens) :
    ∃ tree : Tree, tree.inorder = tokens ∧ tree.Ordered := by
  induction h using IsExpression.levels with
  | level tokens h hgroups => exact exists_tree_of_groups h hgroups

end Tree

end Shading
