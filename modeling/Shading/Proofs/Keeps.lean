import Shading.Statement.Value
import Shading.Proofs.Root
import Shading.Proofs.Declared
import Shading.Proofs.Rescan

/-!
# What resolving a statement can produce

Resolving a statement builds expressions from operands, combines them, creates declared
variables and drafts assignments, and does nothing else.  So a property of expressions
that operands have and that operations keep holds of the result, of every value that is
assigned and of every target, whether or not the statement fails.  `Closed` collects
what is asked of the property; it may depend on the number of variables that exist.

* `keeps_value`: a closed property holds of everything that a statement produces.
-/

namespace Shading

/-! ## Steps that keep an invariant -/

namespace Action

variable {σ α β : Type} {inv : σ → Prop} {count : σ → Nat} {n : Nat} {post : Nat → α → Prop}

/-- From a state that counts at least `n` the step keeps the invariant and does not count back,
and if it gives a result, `post` holds of it and the count. -/
def Keeps (inv : σ → Prop) (count : σ → Nat) (n : Nat) (step : Action σ α)
    (post : Nat → α → Prop) : Prop :=
  ∀ s : σ, inv s → n ≤ count s →
    inv (step.run s).2 ∧ count s ≤ count (step.run s).2 ∧
      ∀ a, (step.run s).1 = .ok a → post (count (step.run s).2) a

theorem keeps_pure {a : α} (h : ∀ m, n ≤ m → post m a) : Keeps inv count n (pure a) post := by
  intro s hs hn
  refine ⟨hs, Nat.le_refl _, fun b hb => ?_⟩
  obtain rfl : a = b := by simpa using hb
  exact h _ hn

theorem keeps_fail (fault : Fault) : Keeps inv count n (fail fault) post :=
  fun _ hs _ => ⟨hs, Nat.le_refl _, by simp⟩

theorem keeps_state : Keeps inv count n state fun _ _ => True :=
  fun _ hs _ => ⟨hs, Nat.le_refl _, fun _ _ => trivial⟩

theorem keeps_ofExcept (result : Except Fault α) :
    Keeps inv count n (ofExcept result) fun _ _ => True :=
  fun _ hs _ => ⟨hs, Nat.le_refl _, fun _ _ => trivial⟩

theorem Keeps.mono {step : Action σ α} (h : Keeps inv count n step post) {m : Nat} (hle : n ≤ m) :
    Keeps inv count m step post :=
  fun s hs hm => h s hs (Nat.le_trans hle hm)

/-- One step after another: the second starts where the first leaves off. -/
theorem Keeps.bind {step : Action σ α} (h : Keeps inv count n step post) {next : α → Action σ β}
    {last : Nat → β → Prop}
    (hnext : ∀ m a, n ≤ m → post m a → Keeps inv count m (next a) last) :
    Keeps inv count n (step >>= next) last := by
  intro s hs hn
  obtain ⟨hkept, hle, hpost⟩ := h s hs hn
  cases hrun : step.run s with
  | mk result s' =>
      rw [hrun] at hkept hle hpost
      cases result with
      | error fault =>
          rw [run_bind_error hrun]
          exact ⟨hkept, hle, by simp⟩
      | ok a =>
          rw [run_bind_ok hrun]
          obtain ⟨hkept', hle', hlast⟩ :=
            hnext _ a (Nat.le_trans hn hle) (hpost a rfl) s' hkept (Nat.le_refl _)
          exact ⟨hkept', Nat.le_trans hle hle', hlast⟩

end Action

/-! ## Symbols and cuts -/

namespace Symbol

/-- The operations of a role take as many operands as the role gives them. -/
def hasArity (symbol : Symbol) : Bool :=
  match symbol.role with
  | .assign => true
  | .between operation => operation.arity == 2
  | .betweenOrBefore between before => between.arity == 2 && before.arity == 1
  | .before operation => operation.arity == 1

theorem hasArity_of_mem_table {symbol : Symbol} (h : symbol ∈ table) : symbol.hasArity = true := by
  revert symbol
  decide

end Symbol

/-- A cut is at a split point of one of the fragments. -/
theorem Cut.exists_of_mem_cuts {α : Type} {items : List (Item α)} {cut : Cut α}
    (h : cut ∈ cuts items) :
    ∃ fragment, items = cut.left ++ .text fragment :: cut.right ∧
      cut.point ∈ Occurrence.splitPoints fragment := by
  induction items generalizing cut with
  | nil => simp [cuts] at h
  | cons item rest ih =>
      have hcons : ∀ {d : Cut α}, d ∈ cuts rest → ∃ fragment,
          item :: rest = (d.cons item).left ++ .text fragment :: (d.cons item).right ∧
            (d.cons item).point ∈ Occurrence.splitPoints fragment := by
        intro d hd
        obtain ⟨fragment, heq, hpoint⟩ := ih hd
        exact ⟨fragment, by rw [heq]; rfl, hpoint⟩
      cases item with
      | value a =>
          obtain ⟨d, hd, rfl⟩ := List.mem_map.mp h
          exact hcons hd
      | text fragment =>
          rcases List.mem_append.mp h with h | h
          · obtain ⟨point, hpoint, rfl⟩ := List.mem_map.mp h
            exact ⟨fragment, rfl, hpoint⟩
          · obtain ⟨d, hd, rfl⟩ := List.mem_map.mp h
            exact hcons hd

/-- A flat statement splits at a split point of one of its fragments. -/
theorem Cut.exists_of_find? {α : Type} {items : List (Item α)} {cut : Cut α}
    (h : find? items = some cut) :
    ∃ fragment, items = cut.left ++ .text fragment :: cut.right ∧
      cut.point ∈ Occurrence.splitPoints fragment := by
  obtain ⟨earlier, later, hcuts, -⟩ := find?_spec h
  exact exists_of_mem_cuts (by rw [hcuts]; simp)

/-! ## Properties of expressions -/

/-- Whether a property holds of the expression that an item is, if it is one. -/
def Item.Holds (P : Expr → Prop) : Item Expr → Prop
  | .text _ => True
  | .value result => P result

theorem Item.Holds.mono {P Q : Expr → Prop} (hPQ : ∀ e, P e → Q e) {item : Item Expr}
    (h : item.Holds P) : item.Holds Q := by
  cases item with
  | text fragment => trivial
  | value result => exact hPQ result h

/-- The only item that a text can be is its fragment. -/
theorem Item.forall_mem_ofText {α : Type} {P : Item α → Prop} {text : Text}
    (h : P (.text (Text.trim text))) : ∀ item ∈ ofText text, P item := by
  intro item hitem
  obtain ⟨fragment, hfragment, rfl⟩ := List.mem_map.mp hitem
  obtain ⟨rfl, -⟩ := Text.fragment?_eq_some_iff.mp (Option.mem_toList.mp hfragment)
  exact h

theorem Item.holds_ofText (P : Expr → Prop) (text : Text) : ∀ item ∈ ofText text, item.Holds P :=
  forall_mem_ofText trivial

namespace SplitTree

/-- A property holds of the values in the leaves, and the splits are at known symbols. -/
def Holds (P : Expr → Prop) : SplitTree Expr → Prop
  | .leaf items => ∀ item ∈ items, item.Holds P
  | .tooDeep _ => True
  | .split point left right => point.symbol ∈ Symbol.table ∧ left.Holds P ∧ right.Holds P

theorem Holds.mono {P Q : Expr → Prop} (hPQ : ∀ e, P e → Q e) {tree : SplitTree Expr}
    (h : tree.Holds P) : tree.Holds Q := by
  induction tree with
  | leaf items => exact fun item hitem => (h item hitem).mono hPQ
  | tooDeep point => trivial
  | split point left right ihleft ihright => exact ⟨h.1, ihleft h.2.1, ihright h.2.2⟩

/-- A cut is at a symbol of the table, and its sides have no values but those of the items. -/
theorem holds_sides {P : Expr → Prop} {items : List (Item Expr)} (h : ∀ item ∈ items, item.Holds P)
    {cut : Cut Expr} (hfind : Cut.find? items = some cut) :
    cut.point.symbol ∈ Symbol.table ∧
      (∀ item ∈ cut.leftSide, item.Holds P) ∧ ∀ item ∈ cut.rightSide, item.Holds P := by
  obtain ⟨fragment, rfl, hpoint⟩ := Cut.exists_of_find? hfind
  refine ⟨Occurrence.symbol_mem_table (List.mem_filter.mp hpoint).1, ?_, ?_⟩
  · intro item hitem
    rcases List.mem_append.mp hitem with hitem | hitem
    · exact h item (by simp [hitem])
    · exact Item.holds_ofText P _ item hitem
  · intro item hitem
    rcases List.mem_append.mp hitem with hitem | hitem
    · exact Item.holds_ofText P _ item hitem
    · exact h item (by simp [hitem])

/-- Splitting leaves the values of a flat statement as they are. -/
theorem holds_ofItems {P : Expr → Prop} (levels : Nat) {items : List (Item Expr)}
    (h : ∀ item ∈ items, item.Holds P) : (ofItems levels items).Holds P := by
  induction levels generalizing items with
  | zero =>
      simp only [ofItems]
      split
      · exact h
      · trivial
  | succ levels ih =>
      simp only [ofItems]
      split
      next => exact h
      next cut hfind =>
        obtain ⟨hsymbol, hleft, hright⟩ := holds_sides h hfind
        exact ⟨hsymbol, ih hleft, ih hright⟩

end SplitTree

/-- A property of expressions, in the presence of so many variables, that operands have and
operations keep. -/
structure Closed (setting : Setting) (P : Nat → Expr → Prop) : Prop where
  mono : ∀ {n m e}, n ≤ m → P n e → P m e
  bound : ∀ {n word id}, setting.known.length ≤ n → setting.scope.find? word = some id →
    P n (.var id)
  fresh : ∀ {n id}, setting.known.length ≤ id → id < n → P n (.var id)
  literal : ∀ {n word value}, Literal.ofToken? word = some value → P n (.literal value)
  name : ∀ {n text}, P n (.name text)
  unary : ∀ {n operation e}, operation.arity = 1 → P n e → P n (.unary operation e)
  binary : ∀ {n operation a b}, operation.arity = 2 → P n a → P n b → P n (.binary operation a b)

/-! ## Drafts -/

/-- The number of variables that exist or are drafted. -/
def Setting.count (setting : Setting) (draft : Draft) : Nat :=
  (setting.labels draft).length

theorem Setting.count_eq (setting : Setting) (draft : Draft) :
    setting.count draft = setting.known.length + draft.created.length := by
  simp [count, labels]

theorem Setting.known_le_count (setting : Setting) (draft : Draft) :
    setting.known.length ≤ setting.count draft := by
  rw [count_eq]
  exact Nat.le_add_right _ _

/-- Only declared variables are created, and the property holds of all that is assigned and of
the variables assigned to. -/
structure Draft.Holds (setting : Setting) (P : Nat → Expr → Prop) (draft : Draft) : Prop where
  created : ∀ v ∈ draft.created, v.IsDeclared ∧ v.value = none
  target : ∀ a ∈ draft.assignments, P (setting.count draft) (.var a.target)
  value : ∀ a ∈ draft.assignments, P (setting.count draft) a.value

namespace Drafting

open Shading.Action

variable {setting : Setting} {P : Nat → Expr → Prop} {n : Nat}

/-- A step of resolving a statement that keeps what holds of the draft. -/
abbrev Keeps {α : Type} (setting : Setting) (P : Nat → Expr → Prop) (n : Nat) (step : Drafting α)
    (post : Nat → α → Prop) : Prop :=
  Action.Keeps (Draft.Holds setting P) setting.count n step post

theorem keeps_report (event : Event) : Keeps setting P n (report event) fun _ _ => True :=
  fun _ hdraft _ =>
    ⟨⟨hdraft.created, hdraft.target, hdraft.value⟩, Nat.le_refl _, fun _ _ => trivial⟩

/-- A declared variable that is created has the property. -/
theorem keeps_create (hP : Closed setting P) {v : Variable} (hv : v.IsDeclared ∧ v.value = none) :
    Keeps setting P n (create setting v) fun m id => P m (.var id) := by
  intro draft hdraft _
  have hcount : setting.count (create setting v |>.run draft).2 = setting.count draft + 1 := by
    simp [Setting.count, Setting.labels, create, Action.run, Nat.add_assoc]
  refine ⟨⟨?_, ?_, ?_⟩, ?_, ?_⟩
  · intro w hw
    rcases List.mem_append.mp hw with hw | hw
    · exact hdraft.created w hw
    · rw [List.mem_singleton.mp hw]
      exact hv
  · intro a ha
    exact hP.mono (by omega) (hdraft.target a ha)
  · intro a ha
    exact hP.mono (by omega) (hdraft.value a ha)
  · omega
  · intro id hid
    obtain rfl : setting.count draft = id := by simpa [create, Action.run, Setting.count] using hid
    rw [hcount]
    exact hP.fresh (setting.known_le_count draft) (Nat.lt_succ_self _)

theorem keeps_assign (hP : Closed setting P) {id : VariableId} {e : Expr} (hid : P n (.var id))
    (he : P n e) : Keeps setting P n (assign id e) fun _ _ => True := by
  intro draft hdraft hn
  refine ⟨⟨hdraft.created, ?_, ?_⟩, Nat.le_refl _, fun _ _ => trivial⟩
  · intro a ha
    rcases List.mem_append.mp ha with ha | ha
    · exact hdraft.target a ha
    · rw [List.mem_singleton.mp ha]
      exact hP.mono hn hid
  · intro a ha
    rcases List.mem_append.mp ha with ha | ha
    · exact hdraft.value a ha
    · rw [List.mem_singleton.mp ha]
      exact hP.mono hn he

end Drafting

/-! ## Statements -/

namespace Statement

open Shading.Action Drafting

variable {setting : Setting} {P : Nat → Expr → Prop} {n : Nat}

/-- The value of a split has the property if the values of its sides have it. -/
theorem keeps_combine (hP : Closed setting P) {point : Occurrence}
    (hsymbol : point.symbol ∈ Symbol.table) {left right : Option Expr}
    (hleft : ∀ e ∈ left, P n e) (hright : ∀ e ∈ right, P n e) :
    Keeps setting P n (combine setting point left right) P := by
  have harity := Symbol.hasArity_of_mem_table hsymbol
  unfold Symbol.hasArity at harity
  have hreport : ∀ {event : Event} {e : Expr}, P n e →
      Keeps setting P n (do report event; pure e) P :=
    fun he => (keeps_report _).bind fun _ _ hm _ => keeps_pure fun _ hle => hP.mono (by omega) he
  cases left with
  | none =>
      cases right with
      | none => exact hreport hP.name
      | some right =>
          have hright := hright right rfl
          simp only [combine]
          split
          next hrole =>
            simp only [hrole, Bool.and_eq_true, beq_iff_eq] at harity
            exact keeps_pure fun _ hle => hP.unary harity.2 (hP.mono hle hright)
          next hrole =>
            simp only [hrole, beq_iff_eq] at harity
            exact keeps_pure fun _ hle => hP.unary harity (hP.mono hle hright)
          -- A symbol that lacks an operand gives the one it has.
          next => exact hreport hright
  | some left =>
      have hleft := hleft left rfl
      cases right with
      | none => exact hreport hleft
      | some right =>
          have hright := hright right rfl
          simp only [combine]
          split
          next =>
            split
            next id =>
              refine (keeps_assign hP hleft hright).bind fun m _ hm _ => keeps_pure fun _ hle => ?_
              exact hP.mono (by omega) hleft
            next => exact keeps_state.bind fun _ _ _ _ => keeps_fail _
          next hrole =>
            simp only [hrole, beq_iff_eq] at harity
            exact keeps_pure fun _ hle => hP.binary harity (hP.mono hle hleft) (hP.mono hle hright)
          next hrole =>
            simp only [hrole, Bool.and_eq_true, beq_iff_eq] at harity
            exact keeps_pure fun _ hle =>
              hP.binary harity.1 (hP.mono hle hleft) (hP.mono hle hright)
          -- A symbol that only leads drops its left operand.
          next hrole =>
            simp only [hrole, beq_iff_eq] at harity
            exact hreport (hP.unary harity hright)

theorem closed_ofWord (hP : Closed setting P) (hn : setting.known.length ≤ n) (word : Text) :
    P n (Operand.ofWord setting.scope word) := by
  unfold Operand.ofWord
  split
  next hbound => exact hP.bound hn hbound
  next =>
    split
    next hliteral => exact hP.literal hliteral
    next => exact hP.name

theorem closed_read (hP : Closed setting P) (hn : setting.known.length ≤ n) {text : Text}
    {result : Expr} (h : Operand.read setting.scope text = .expr result) : P n result := by
  unfold Operand.read at h
  dsimp only at h
  split at h
  next =>
    split at h
    · simp at h
    · obtain rfl : Expr.name _ = result := by simpa using h
      exact hP.name
  next =>
    obtain rfl : Operand.ofWord setting.scope _ = result := by simpa using h
    exact closed_ofWord hP hn _

theorem keeps_item (hP : Closed setting P) {i : Item Expr} (h : i.Holds (P n)) :
    Keeps setting P n (item setting i) P := by
  cases i with
  | value result => exact keeps_pure fun _ hle => hP.mono hle h
  | text fragment =>
      rw [item]
      split
      next result hread =>
        intro draft hdraft hn
        have hresult := closed_read hP (setting.known_le_count draft) hread
        exact keeps_pure (fun _ hle => hP.mono hle hresult) draft hdraft (Nat.le_refl _)
      next v hread =>
        have hv := Operand.isDeclared_of_read hread
        refine (keeps_create hP hv).bind fun m id _ hid => keeps_pure fun _ hle => ?_
        exact hP.mono hle hid

theorem keeps_leaf (hP : Closed setting P) {items : List (Item Expr)}
    (h : ∀ i ∈ items, i.Holds (P n)) :
    Keeps setting P n (leaf setting items) fun m result => ∀ e ∈ result, P m e := by
  have hsome : ∀ {i : Item Expr}, i.Holds (P n) →
      Keeps setting P n (do let result ← item setting i; pure (some result))
        fun m result => ∀ e ∈ result, P m e := by
    intro i hi
    refine (keeps_item hP hi).bind fun m e _ he => keeps_pure fun k hle => ?_
    simpa using hP.mono hle he
  cases items with
  | nil => exact keeps_pure (by simp)
  | cons first rest =>
      cases rest with
      | nil => exact hsome (h first (List.mem_cons_self ..))
      | cons second more =>
          exact (keeps_report _).bind fun m _ hm _ =>
            (hsome (h first (List.mem_cons_self ..))).mono hm

/-- What resolving a tree of splits gives has the property. -/
theorem keeps_tree (hP : Closed setting P) {splits : SplitTree Expr} (h : splits.Holds (P n)) :
    Keeps setting P n (tree setting splits) fun m result => ∀ e ∈ result, P m e := by
  induction splits generalizing n with
  | leaf items => exact keeps_leaf hP h
  | tooDeep point => exact keeps_fail _
  | split point left right ihleft ihright =>
      obtain ⟨hsymbol, hleft, hright⟩ := h
      refine (keeps_report _).bind fun m _ hm _ => ?_
      refine (ihleft (hleft.mono fun e => hP.mono hm)).bind fun k leftValue hk hleftValue => ?_
      refine (ihright (hright.mono fun e => hP.mono (by omega))).bind
        fun l rightValue hl hrightValue => ?_
      have hleftLater : ∀ e ∈ leftValue, P l e := fun e he => hP.mono hl (hleftValue e he)
      refine (keeps_combine hP hsymbol hleftLater hrightValue).bind fun j e _ he =>
        keeps_pure fun i hi => ?_
      simpa using hP.mono hi he

theorem keeps_flat (hP : Closed setting P) {items : List (Item Expr)} (levels : Nat)
    (h : ∀ i ∈ items, i.Holds (P n)) :
    Keeps setting P n (flat setting levels items) fun m result => ∀ e ∈ result, P m e :=
  keeps_tree hP (SplitTree.holds_ofItems (levels + 1) h)

mutual

/-- The items of a piece have the property. -/
theorem keeps_piece (hP : Closed setting P) : ∀ (levels n : Nat) (part : Piece),
    Keeps setting P n (piece setting levels part) fun m items => ∀ i ∈ items, i.Holds (P m)
  | levels, n, .text fragment => by
      rw [piece]
      exact keeps_pure fun _ _ => by simp [Item.Holds]
  | 0, n, .group inner => by
      rw [piece]
      exact keeps_fail _
  | levels + 1, n, .group inner => by
      rw [piece]
      refine (keeps_pieces hP levels n inner).bind fun m items _ hitems => ?_
      refine (keeps_flat hP levels hitems).bind fun k result _ hresult => keeps_pure fun j hj => ?_
      intro i hi
      obtain ⟨e, he, rfl⟩ := List.mem_map.mp hi
      exact hP.mono hj (hresult e (by simpa using he))

theorem keeps_pieces (hP : Closed setting P) : ∀ (levels n : Nat) (parts : List Piece),
    Keeps setting P n (pieces setting levels parts) fun m items => ∀ i ∈ items, i.Holds (P m)
  | levels, n, [] => by
      rw [pieces]
      exact keeps_pure fun _ _ => by simp
  | levels, n, first :: rest => by
      rw [pieces]
      refine (keeps_piece hP levels n first).bind fun m firstItems _ hfirst => ?_
      refine (keeps_pieces hP levels m rest).bind fun k restItems hk hrest =>
        keeps_pure fun j hj => ?_
      intro i hi
      rcases List.mem_append.mp hi with hi | hi
      · exact Item.Holds.mono (fun e => hP.mono (by omega)) (hfirst i hi)
      · exact Item.Holds.mono (fun e => hP.mono hj) (hrest i hi)

end

/-- A closed property holds of everything that a statement produces. -/
theorem keeps_value (hP : Closed setting P) (parts : List Piece) :
    Keeps setting P n (value setting parts) fun m result => ∀ e ∈ result, P m e :=
  (keeps_pieces hP setting.limit n parts).bind fun _ _ _ hitems =>
    keeps_flat hP setting.limit hitems

end Statement

end Shading
