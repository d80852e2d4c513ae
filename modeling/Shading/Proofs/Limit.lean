import Shading.Proofs.Gives
import Shading.Proofs.Place
import Shading.Proofs.History

/-!
# The limit decides only whether a run is stopped

How deep brackets, groups and splits may nest is tested in three places, and each of them
counts in its own way.  None of them has a say in what is built: as long as a run is not
stopped by its limit, it is the same run under every higher limit, step by step and with
the same changes to the store and the scope.

`Lockstep` compares a run with one under a higher limit.  Either the first is stopped, and
then by its own limit, or both have the same outcome and end in corresponding states.

* `Lockstep.bind`: steps that go in lockstep, one after the other.
* `rises_tree`, `rises_pieces`: splits and groups, by the room that is left for them.
* `lockstep_step`: one call to a session.
* `limit_monotone`: whole sessions, and cutting and resolving on their own.
-/

namespace Shading

/-! ## Runs in lockstep -/

/-- Whether the cause of a fault is that the limit was exceeded. -/
def Fault.isTooDeep (fault : Fault) : Bool :=
  match fault.cause with
  | .tooDeep _ => true
  | _ => false

namespace Action

variable {σ α β : Type} {R : σ → σ → Prop} {limit : Nat}

/-- Whether an outcome is that the limit was exceeded. -/
def isStopped : (outcome : Except Fault α) → Bool
  | .ok _ => false
  | .error fault => fault.isTooDeep

/-- A run under a limit, and the same under a higher one: the first is stopped by its limit, or both
have the same outcome, which is not that, and end in states that correspond. -/
inductive Lockstep (R : σ → σ → Prop) (limit : Nat) : (low high : Except Fault α × σ) → Prop
  | stopped {source : Text} {s : σ} {high : Except Fault α × σ} :
      Lockstep R limit (.error ⟨.tooDeep limit, source⟩, s) high
  | same {outcome : Except Fault α} {s s' : σ} (hgoes : isStopped outcome = false) (h : R s s') :
      Lockstep R limit (outcome, s) (outcome, s')

namespace Lockstep

variable {low high : Except Fault α × σ}

/-- The limit that stops a run is its own. -/
theorem limit_eq (h : Lockstep R limit low high) {other : Nat} {source : Text}
    (hlow : low.1 = .error ⟨.tooDeep other, source⟩) : other = limit := by
  cases h with
  | stopped =>
      obtain ⟨hlimit, -⟩ : limit = other ∧ _ := by simpa using hlow
      exact hlimit.symm
  | same hgoes =>
      dsimp only at hlow
      rw [hlow] at hgoes
      simp [isStopped, Fault.isTooDeep] at hgoes

/-- A run that is not stopped is the same under the higher limit. -/
theorem eq_of_goes (h : Lockstep R limit low high) (hlow : isStopped low.1 = false) :
    high.1 = low.1 ∧ R low.2 high.2 := by
  cases h with
  | stopped => simp [isStopped, Fault.isTooDeep] at hlow
  | same _ hR => exact ⟨rfl, hR⟩

theorem bind {step step' : Action σ α} {s s' : σ}
    (h : Lockstep R limit (step.run s) (step'.run s')) {next next' : α → Action σ β}
    (hnext : ∀ a t t', R t t' → Lockstep R limit ((next a).run t) ((next' a).run t')) :
    Lockstep R limit ((step >>= next).run s) ((step' >>= next').run s') := by
  rw [run_bind, run_bind]
  generalize step.run s = low at h ⊢
  generalize step'.run s' = high at h ⊢
  cases h with
  | stopped => exact .stopped
  | @same outcome t t' hgoes hR =>
      cases outcome with
      | error fault => exact .same hgoes hR
      | ok a => exact hnext a t t' hR

end Lockstep

end Action

/-! ## Cutting -/

namespace Brackets

variable {brackets : Brackets} {limit more : Nat}

theorem step?_of_le (hle : limit ≤ more) {reading next : Reading} {c : Char}
    (h : brackets.step? limit reading c = some next) :
    brackets.step? more reading c = some next := by
  unfold step? at h ⊢
  split at h
  next hexposes =>
    rw [if_pos hexposes]
    split at h
    next hopening =>
      rw [if_pos hopening]
      split at h
      next hroom => rw [if_pos (Nat.lt_of_lt_of_le hroom hle), h]
      next => cases h
    next hopening => rw [if_neg hopening, h]
  next hexposes => rw [if_neg hexposes, h]

theorem read?_of_le (hle : limit ≤ more) {reading final : Reading} {text : Text}
    (h : brackets.read? limit reading text = some final) :
    brackets.read? more reading text = some final := by
  induction text generalizing reading with
  | nil => exact h
  | cons c rest ih =>
      rw [read?_cons] at h ⊢
      obtain ⟨next, hnext, hrest⟩ := Option.bind_eq_some_iff.mp h
      rw [step?_of_le hle hnext, Option.bind_some, ih hrest]

/-- A text that is cut is cut alike under a higher limit. -/
theorem cut_of_le (hle : limit ≤ more) (text : Text) :
    brackets.cut limit text = .error ⟨.tooDeep limit, text⟩ ∨
      ∃ pieces, brackets.cut limit text = .ok pieces ∧ brackets.cut more text = .ok pieces := by
  unfold cut
  cases hread : brackets.read? limit {} text with
  | none => exact .inl rfl
  | some final => exact .inr ⟨final.pieces, rfl, by rw [read?_of_le hle hread]⟩

theorem lockstep_cut (hle : limit ≤ more) {σ : Type} {R : σ → σ → Prop} {s s' : σ} (h : R s s')
    (text : Text) :
    Action.Lockstep R limit ((Action.ofExcept (brackets.cut limit text)).run s)
      ((Action.ofExcept (brackets.cut more text)).run s') := by
  rw [Action.run_ofExcept, Action.run_ofExcept]
  rcases brackets.cut_of_le hle text with hstop | ⟨pieces, hlow, hhigh⟩
  · rw [hstop]
    exact .stopped
  · rw [hlow, hhigh]
    exact .same rfl h

end Brackets

/-! ## Statements -/

/-- The setting with another limit. -/
def Setting.withLimit (setting : Setting) (limit : Nat) : Setting :=
  { setting with limit }

namespace Drafting

variable {α β : Type} {limit : Nat}

/-- The second step goes in lockstep with the first, whatever was drafted before. -/
def Rises (limit : Nat) (step step' : Drafting α) : Prop :=
  ∀ draft : Draft, Action.Lockstep Eq limit (step.run draft) (step'.run draft)

theorem rises_of_goes {step : Drafting α}
    (h : ∀ draft, Action.isStopped (step.run draft).1 = false) : Rises limit step step :=
  fun draft => .same (h draft) rfl

theorem rises_pure (a : α) : Rises limit (pure a) (pure a) :=
  rises_of_goes fun _ => rfl

theorem rises_report (event : Event) : Rises limit (report event) (report event) :=
  rises_of_goes fun _ => rfl

theorem rises_tooDeep {source : Text} {step' : Drafting α} :
    Rises limit (.fail ⟨.tooDeep limit, source⟩) step' :=
  fun _ => .stopped

theorem Rises.bind {step step' : Drafting α} (h : Rises limit step step')
    {next next' : α → Drafting β} (hnext : ∀ a, Rises limit (next a) (next' a)) :
    Rises limit (step >>= next) (step' >>= next') :=
  fun draft => (h draft).bind fun a t _ ht => ht ▸ hnext a t

end Drafting

namespace Statement

open Drafting

variable {setting : Setting} {more : Nat}

/-- Building the value of a split has nothing to do with the limit. -/
theorem rises_combine (point : Occurrence) (left right : Option Expr) :
    Rises setting.limit (combine setting point left right)
      (combine (setting.withLimit more) point left right) := by
  refine rises_of_goes fun draft => ?_
  unfold combine
  repeat' split
  all_goals rfl

theorem rises_item (i : Item Expr) :
    Rises setting.limit (item setting i) (item (setting.withLimit more) i) := by
  refine rises_of_goes fun draft => ?_
  unfold item
  repeat' split
  all_goals rfl

theorem rises_leaf (items : List (Item Expr)) :
    Rises setting.limit (leaf setting items) (leaf (setting.withLimit more) items) := by
  cases items with
  | nil => exact rises_pure none
  | cons first rest =>
      cases rest with
      | nil => exact (rises_item first).bind fun e => rises_pure (some e)
      | cons second others =>
          exact (rises_report _).bind fun _ =>
            (rises_item first).bind fun e => rises_pure (some e)

/-- A flat statement that is given more levels to split on. -/
theorem rises_tree {levels levels' : Nat} (hle : levels ≤ levels') (items : List (Item Expr)) :
    Rises setting.limit (tree setting (.ofItems levels items))
      (tree (setting.withLimit more) (.ofItems levels' items)) := by
  induction levels generalizing levels' items with
  | zero =>
      cases hfind : Cut.find? items with
      | none =>
          rw [SplitTree.ofItems_of_find? hfind, SplitTree.ofItems_of_find? hfind]
          exact rises_leaf items
      | some cut =>
          have htooDeep : SplitTree.ofItems 0 items = .tooDeep cut.point := by
            simp [SplitTree.ofItems, hfind]
          rw [htooDeep]
          exact rises_tooDeep
  | succ levels ih =>
      obtain ⟨room, rfl⟩ : ∃ room, levels' = room + 1 := ⟨levels' - 1, by omega⟩
      have hroom : levels ≤ room := by omega
      cases hfind : Cut.find? items with
      | none =>
          rw [SplitTree.ofItems_of_find? hfind, SplitTree.ofItems_of_find? hfind]
          exact rises_leaf items
      | some cut =>
          rw [SplitTree.ofItems_succ_of_find? hfind, SplitTree.ofItems_succ_of_find? hfind]
          refine (rises_report _).bind fun _ => ?_
          refine (ih hroom cut.leftSide).bind fun left => ?_
          refine (ih hroom cut.rightSide).bind fun right => ?_
          exact (rises_combine cut.point left right).bind fun e => rises_pure (some e)

theorem rises_flat {levels levels' : Nat} (hle : levels ≤ levels') (items : List (Item Expr)) :
    Rises setting.limit (flat setting levels items)
      (flat (setting.withLimit more) levels' items) :=
  rises_tree (by omega) items

mutual

theorem rises_piece {levels levels' : Nat} (hle : levels ≤ levels') : ∀ part : Piece,
    Rises setting.limit (piece setting levels part) (piece (setting.withLimit more) levels' part)
  | .text fragment => by
      rw [piece, piece]
      exact rises_pure _
  | .group inner => by
      -- With no level left the first run is stopped, and nothing is asked of the second.
      match levels, levels' with
      | 0, _ =>
          rw [piece]
          exact rises_tooDeep
      | levels + 1, room + 1 =>
          have hroom : levels ≤ room := by omega
          rw [piece, piece]
          refine (rises_pieces hroom inner).bind fun items => ?_
          exact (rises_flat hroom items).bind fun result => rises_pure _

theorem rises_pieces {levels levels' : Nat} (hle : levels ≤ levels') : ∀ parts : List Piece,
    Rises setting.limit (pieces setting levels parts)
      (pieces (setting.withLimit more) levels' parts)
  | [] => by
      rw [pieces, pieces]
      exact rises_pure _
  | first :: rest => by
      rw [pieces, pieces]
      refine (rises_piece hle first).bind fun firstItems => ?_
      exact (rises_pieces hle rest).bind fun restItems => rises_pure _

end

/-- Resolving a statement under a higher limit. -/
theorem rises_value (hle : setting.limit ≤ more) (parts : List Piece) :
    Rises setting.limit (value setting parts) (value (setting.withLimit more) parts) :=
  (rises_pieces hle parts).bind fun items => rises_flat hle items

end Statement

/-! ## Sources -/

namespace Line

theorem isTooDeep_of_ofDirective {line body : Text} {fault : Fault}
    (h : ofDirective line body = .malformed fault) : fault.isTooDeep = false := by
  unfold ofDirective at h
  dsimp only at h
  split at h
  next =>
    split at h
    next =>
      obtain rfl : _ = fault := Line.malformed.inj h
      rfl
    next => cases h
  next => cases h

theorem isTooDeep_of_read {substitutions : List Substitution} {raw : Text} {fault : Fault}
    (h : read substitutions raw = .malformed fault) : fault.isTooDeep = false := by
  unfold read ofTrimmed at h
  split at h
  · cases h
  · cases h
  · exact isTooDeep_of_ofDirective h
  · cases h

/-- A malformed line is the only reason for a source to have no code. -/
theorem isStopped_codes (substitutions : List Substitution) (raws : List Text) :
    Action.isStopped (codes (readAll substitutions raws)) = false := by
  have hmap : ∀ {outcome : Except Fault (List Text)} {f : List Text → List Text},
      Action.isStopped outcome = false → Action.isStopped (outcome.map f) = false := by
    intro outcome f hgoes
    cases outcome with
    | ok texts => rfl
    | error fault => exact hgoes
  induction raws generalizing substitutions with
  | nil => rfl
  | cons raw rest ih =>
      rw [readAll]
      cases hread : read substitutions raw with
      | definition s => exact ih _
      | malformed fault => exact isTooDeep_of_read hread
      | blank => exact ih _
      | ignored line => exact ih _
      | code text => exact hmap (ih _)

end Line

theorem Source.isStopped_code (text : Text) : Action.isStopped (code text) = false := by
  have hcodes := Line.isStopped_codes [] (rawLines text)
  unfold code lines
  cases hlines : Line.codes (Line.readAll [] (rawLines text)) with
  | ok codes => rfl
  | error fault =>
      rw [hlines] at hcodes
      exact hcodes

/-! ## Sessions -/

namespace Session

open Shading.Action

/-- The session with another limit. -/
def withLimit (session : Session) (limit : Nat) : Session :=
  { session with options := { session.options with limit } }

/-- A session under one limit, and the same under another. -/
def Lifts (limit more : Nat) (session other : Session) : Prop :=
  session.options.limit = limit ∧ other = session.withLimit more

variable {limit more : Nat} {s s' : Session}

theorem lockstep_pure {α : Type} (h : Lifts limit more s s') (a : α) :
    Lockstep (Lifts limit more) limit ((pure a : Run α).run s) ((pure a : Run α).run s') :=
  .same rfl h

theorem lockstep_report (h : Lifts limit more s s') (events : List Event) :
    Lockstep (Lifts limit more) limit ((report events).run s) ((report events).run s') := by
  obtain ⟨hlimit, rfl⟩ := h
  exact .same rfl ⟨hlimit, rfl⟩

theorem lockstep_enterScope (h : Lifts limit more s s') (e : Expr) :
    Lockstep (Lifts limit more) limit ((update (enterScope e)).run s)
      ((update (enterScope e)).run s') := by
  obtain ⟨hlimit, rfl⟩ := h
  refine .same rfl ⟨?_, ?_⟩
  · unfold enterScope
    repeat' split
    all_goals exact hlimit
  · unfold enterScope withLimit
    dsimp only
    repeat' split
    all_goals rfl

theorem lockstep_evaluate (hle : limit ≤ more) (h : Lifts limit more s s') (parts : List Piece) :
    Lockstep (Lifts limit more) limit ((evaluate parts).run s) ((evaluate parts).run s') := by
  obtain ⟨hlimit, rfl⟩ := h
  have hsetting : s.setting.limit = limit := hlimit
  have hvalue : Lockstep Eq limit ((Statement.value s.setting parts).run {})
      ((Statement.value (s.setting.withLimit more) parts).run {}) :=
    hsetting ▸ Statement.rises_value (hsetting ▸ hle) parts {}
  have hraised : (s.withLimit more).setting = s.setting.withLimit more := rfl
  rw [run_evaluate, run_evaluate, hraised]
  generalize (Statement.value s.setting parts).run {} = low at hvalue ⊢
  generalize (Statement.value (s.setting.withLimit more) parts).run {} = high at hvalue ⊢
  cases hvalue with
  | stopped => exact .stopped
  | same hgoes hdraft =>
      subst hdraft
      exact .same hgoes ⟨hlimit, rfl⟩

theorem lockstep_statement (hle : limit ≤ more) (h : Lifts limit more s s') (text : Text) :
    Lockstep (Lifts limit more) limit ((statement text).run s) ((statement text).run s') := by
  unfold statement
  dsimp only
  split
  · exact lockstep_pure h none
  · rw [run_bind_ok (run_state s), run_bind_ok (run_state s')]
    obtain ⟨rfl, rfl⟩ := h
    -- Both runs look up the limit, so they cut the same text under different ones.
    refine (Brackets.lockstep_cut hle ⟨rfl, rfl⟩ _).bind fun parts t t' ht => ?_
    refine (lockstep_evaluate hle ht parts).bind fun result t t' ht => ?_
    cases result with
    | none => exact lockstep_pure ht none
    | some e =>
        refine (lockstep_report ht _).bind fun _ t t' ht => ?_
        exact (lockstep_enterScope ht e).bind fun _ t t' ht => lockstep_pure ht (some e)

theorem lockstep_statements (hle : limit ≤ more) (h : Lifts limit more s s')
    (texts : List Text) :
    Lockstep (Lifts limit more) limit ((statements texts).run s) ((statements texts).run s') := by
  induction texts generalizing s s' with
  | nil => exact lockstep_pure h []
  | cons first rest ih =>
      refine (lockstep_statement hle h first).bind fun value t t' ht => ?_
      exact (ih ht).bind fun values t t' ht => lockstep_pure ht _

theorem lockstep_source (hle : limit ≤ more) (h : Lifts limit more s s') (text : Text) :
    Lockstep (Lifts limit more) limit ((source text).run s) ((source text).run s') := by
  unfold source
  rw [run_bind_ok (run_state s), run_bind_ok (run_state s')]
  have hlimit : s.options.limit = limit := h.1
  have hmore : s'.options.limit = more := by rw [h.2]; rfl
  rw [hlimit, hmore]
  refine (lockstep_report h _).bind fun _ t t' ht => ?_
  have hcode : Lockstep (Lifts limit more) limit ((ofExcept (Source.code text)).run t)
      ((ofExcept (Source.code text)).run t') := .same (Source.isStopped_code text) ht
  refine hcode.bind fun code t t' ht => ?_
  refine (Brackets.lockstep_cut hle ht code).bind fun blocks t t' ht => ?_
  exact lockstep_statements hle ht _

end Session

/-! ## Calls -/

namespace Call

open Shading.Action

theorem lockstep_step {limit more : Nat} (hle : limit ≤ more) {s s' : Session}
    (h : Session.Lifts limit more s s') (call : Call) :
    Lockstep (Session.Lifts limit more) limit (call.step.run s) (call.step.run s') := by
  cases call with
  | source text => exact Session.lockstep_source hle h text
  | statement text =>
      exact (Session.lockstep_statement hle h text).bind fun result t t' ht =>
        Session.lockstep_pure ht result.toList

theorem options_step (call : Call) (session : Session) :
    (call.step.run session).2.options = session.options := by
  calc (call.step.run session).2.options
      = ((call.start session).afterSteps (call.steps session)).options := by rw [call.run_step]
    _ = (call.start session).options := (Session.chained_stepsFrom _ _).options_eq
    _ = session.options := (call.agrees_start session).options

end Call

namespace Session

open Shading.Action

/-- What each of some calls gives, and the session after it. -/
def trace : Session → List Call → List (Except Fault (List Expr) × Session)
  | _, [] => []
  | session, call :: rest =>
      call.step.run session :: (call.step.run session).2.trace rest

variable {limit more : Nat} {s s' : Session} {calls : List Call}

/-- Calls of which none is stopped. -/
theorem trace_of_lifts (hle : limit ≤ more) (h : Lifts limit more s s')
    (hgoes : ∀ run ∈ s.trace calls, isStopped run.1 = false) :
    s'.trace calls = (s.trace calls).map fun run => (run.1, run.2.withLimit more) := by
  induction calls generalizing s s' with
  | nil => rfl
  | cons call rest ih =>
      rw [trace, List.forall_mem_cons] at hgoes
      obtain ⟨houtcome, hafter⟩ := (call.lockstep_step hle h).eq_of_goes hgoes.1
      have hrun : call.step.run s' =
          ((call.step.run s).1, (call.step.run s).2.withLimit more) :=
        Prod.ext houtcome hafter.2
      rw [trace, trace, List.map_cons, ih hafter hgoes.2, hrun]

/-- A call that is stopped is stopped by the limit of the session, which no call changes. -/
theorem limit_of_mem_trace {run : Except Fault (List Expr) × Session} (h : run ∈ s.trace calls)
    {other : Nat} {source : Text} (hrun : run.1 = .error ⟨.tooDeep other, source⟩) :
    other = s.options.limit := by
  induction calls generalizing s with
  | nil => simp [trace] at h
  | cons call rest ih =>
      rcases List.mem_cons.mp h with rfl | h
      · have hself : Lifts s.options.limit s.options.limit s s := ⟨rfl, rfl⟩
        exact (call.lockstep_step (Nat.le_refl _) hself).limit_eq hrun
      · rw [ih h, call.options_step]

/-- The limit decides only whether it is exceeded.  If no call of a session is stopped by the limit,
then under a higher limit every call gives the same and leaves the session the same; and a
call that is stopped names the limit of the session.  The same holds of cutting a text and of
resolving a statement. -/
theorem limit_monotone (session : Session) {limit more : Nat} (hle : limit ≤ more) :
    (∀ calls : List Call,
      ((∀ run ∈ (session.withLimit limit).trace calls, isStopped run.1 = false) →
        (session.withLimit more).trace calls =
          ((session.withLimit limit).trace calls).map fun run => (run.1, run.2.withLimit more)) ∧
      ∀ run ∈ (session.withLimit limit).trace calls, ∀ other source,
        run.1 = .error ⟨.tooDeep other, source⟩ → other = limit) ∧
    (∀ (brackets : Brackets) (text : Text),
      (isStopped (brackets.cut limit text) = false →
        brackets.cut more text = brackets.cut limit text) ∧
      ∀ other source, brackets.cut limit text = .error ⟨.tooDeep other, source⟩ → other = limit) ∧
    ∀ parts : List Piece,
      let low := (evaluate parts).run (session.withLimit limit)
      let high := (evaluate parts).run (session.withLimit more)
      (isStopped low.1 = false → high = (low.1, low.2.withLimit more)) ∧
      ∀ other source, low.1 = .error ⟨.tooDeep other, source⟩ → other = limit := by
  have hlifts : Lifts limit more (session.withLimit limit) (session.withLimit more) := ⟨rfl, rfl⟩
  refine ⟨fun calls => ⟨trace_of_lifts hle hlifts, ?_⟩, fun brackets text => ?_, fun parts => ?_⟩
  · exact fun run hrun other source hstop => limit_of_mem_trace hrun hstop
  · have hcut := brackets.lockstep_cut hle (rfl : () = ()) text
    exact ⟨fun hgoes => (hcut.eq_of_goes hgoes).1, fun other source hstop => hcut.limit_eq hstop⟩
  · have hevaluate := lockstep_evaluate hle hlifts parts
    refine ⟨fun hgoes => ?_, fun other source hstop => hevaluate.limit_eq hstop⟩
    obtain ⟨houtcome, hafter⟩ := hevaluate.eq_of_goes hgoes
    exact Prod.ext houtcome hafter.2

/-- A declaration with a group, a fault that is not due to the limit, and groups that nest just as
deep as the limit allows; one level less stops the last call. -/
theorem limit_monotone_nested :
    let session : Session := { options := { declares := true } }
    let calls : List Call :=
      [.source "float a = (1 + 2); \x7b 1 = a; \x7d".toList, .statement "a * (-(2))".toList]
    let low := (session.withLimit 2).trace calls
    (∀ run ∈ low, isStopped run.1 = false) ∧
    low.map Prod.fst = [.error ⟨.notAssignable "Int(1)".toList, "1 = a".toList⟩,
      .ok [.binary .multiply (.var 0) (.unary .negate (.literal (.int 2)))]] ∧
    (session.withLimit 7).trace calls =
      low.map (fun run => (run.1, run.2.withLimit 7)) ∧
    ∃ run ∈ (session.withLimit 1).trace calls,
      run.1 = .error ⟨.tooDeep 1, "a * (-(2))".toList⟩ := by
  intro session calls low
  have hgoes : ∀ run ∈ low, isStopped run.1 = false := by decide +kernel
  exact ⟨hgoes, by decide +kernel, ((limit_monotone session (by decide)).1 calls).1 hgoes,
    by decide +kernel⟩

end Session

end Shading
