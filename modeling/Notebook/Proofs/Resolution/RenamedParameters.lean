import Notebook.Proofs.Resolution.RaisedGlobals
import Notebook.Proofs.Syntax.TokenRenaming

/-!
One program under two renamings.

Two places inside of functions are aliases if the same names mean the same there, renamed one way at the
first place and another way at the second (`Site.Alias`).

* `resolveStmts_alias`: what resolves at the first place, renamed the first way, resolves at the second one,
  renamed the second way, to the same commands, provided that it has no function literals.
* `resolveExpr_parameter`: a function literal of one parameter resolves to the same function under another
  name of the parameter, but for where the constants of its unit are.
-/

namespace Notebook

/-- Two ways to rename, neither of which takes two fine names to the same one. Names that are not fine do not
occur. -/
structure Renamings where
  fine : String → Bool
  first : String → String
  second : String → String
  first_inj : ∀ x y, fine x = true → fine y = true → first x = first y → x = y
  second_inj : ∀ x y, fine x = true → fine y = true → second x = second y → x = y

/-- Are two places alike but for their names? They lie inside of functions, and the same constants have
been met there. They are where snippets got to that started from `start` and `start'`, and no functions
were made since. -/
structure Site.Alias (ρ : Renamings) (start start' s s' : Site) : Prop where
  names : ∀ name, ρ.fine name = true → s'.scope.resolve (ρ.second name) = s.scope.resolve (ρ.first name)
  slots : s'.scope.slots = s.scope.slots
  inside : s.scope.isSession = false
  inside' : s'.scope.isSession = false
  constants : s'.constants = s.constants
  offset : s.offset = start.offset
  offset' : s'.offset = start'.offset
  routines : s.routines = start.routines
  routines' : s'.routines = start'.routines

section

variable {ρ : Renamings} {start start' : Site}

namespace Site.Alias

variable {s s' : Site}

theorem constant (h : Alias ρ start start' s s') (v : Value) :
    (s'.constant v).1 = (s.constant v).1 ∧
      Alias ρ start start' (s.constant v).2 (s'.constant v).2 := by
  constructor
  · unfold Site.constant
    rw [h.constants]
  · exact
      { h with
        constants := congrArg (fun constants => constants.push v) h.constants }

/-- Inside of functions, slots of functions are assigned. -/
theorem assignment (h : Alias ρ start start' s s') (index : Nat) (t : Term) :
    s'.assignment index t = s.assignment index t := by
  have hinside := h.inside
  have hinside' := h.inside'
  unfold Site.assignment
  cases hscope : s.scope with
  | session level =>
    rw [hscope] at hinside
    cases hinside
  | function level enclosing => cases hscope' : s'.scope with
    | session level' =>
      rw [hscope'] at hinside'
      cases hinside'
    | function level' enclosing' => rfl

/-- A name that is defined at both places means the same from then on, and nothing else gets the name. -/
theorem define (h : Alias ρ start start' s s') {name : String} (hname : ρ.fine name = true) :
    Alias ρ start start' (s.define (ρ.first name)) (s'.define (ρ.second name)) := by
  obtain ⟨scope, offset, constants, routines⟩ := s
  obtain ⟨scope', offset', constants', routines'⟩ := s'
  cases scope with
  | session level => cases h.inside
  | function level enclosing => cases scope' with
    | session level' => cases h.inside'
    | function level' enclosing' =>
      have hslots : level'.slots = level.slots := h.slots
      refine
        { h with
          names := fun other hother => ?_
          slots := congrArg (· + 1) hslots
          inside := rfl
          inside' := rfl }
      refine (Scope.resolve_define_function _ _).trans
        (Eq.trans ?_ (Scope.resolve_define_function _ _).symm)
      by_cases hsame : name = other
      · rw [hsame, if_pos rfl, if_pos rfl, hslots]
      · rw [if_neg fun heq => hsame (ρ.second_inj _ _ hname hother heq),
          if_neg fun heq => hsame (ρ.first_inj _ _ hname hother heq)]
        exact h.names other hother

end Site.Alias

/-! ### Programs -/

theorem resolveExpr_ident_alias {s s' : Site} (h : Site.Alias ρ start start' s s') {name : String}
    (hname : ρ.fine name = true) :
    Follows Likeness.equal.term (Site.Alias ρ start start') (resolveExpr (.ident (ρ.first name)) s)
      (resolveExpr (.ident (ρ.second name)) s') := by
  intro t after hres
  unfold resolveExpr at hres ⊢
  rw [h.names name hname]
  split at hres <;> cases hres <;> exact ⟨_, s', rfl, rfl, h⟩

/-- Programs without function literals mean the same at two such places. -/
theorem Site.Alias.comparison (ρ : Renamings) (start start' : Site) :
    Comparison (.plain ρ.fine true) .equal ρ.first ρ.second fun _ => Site.Alias ρ start start' where
  ident hname h := resolveExpr_ident_alias h hname
  literal _ h := by
    obtain ⟨hterm, hsite⟩ := h.constant _
    exact ⟨hterm.symm, hsite⟩
  define hlet h := h.define (Bool.and_eq_true_iff.mp hlet).1
  assign {_ _ _ _ s s' t _} _ h hterm := by
    show s.assignment s.scope.slots t = s'.assignment s'.scope.slots _
    rw [← show t = _ from hterm, h.assignment, h.slots]
  enter hliteral := nomatch hliteral
  function hliteral := nomatch hliteral

/-- A program that resolves at the first of two such places resolves at the second one. -/
theorem resolveStmts_alias {p : List Stmt} {s s' s₁ : Site} {cs : List Command}
    (ha : Site.Alias ρ start start' s s') (hplain : Program.isPlain ρ.fine true p = true)
    (h : resolveStmts (Program.rename ρ.first p) s = .ok (cs, s₁)) :
    ∃ s₁', resolveStmts (Program.rename ρ.second p) s' = .ok (cs, s₁') ∧
      Site.Alias ρ start start' s₁ s₁' := by
  have hkind : (ProgramKind.plain ρ.fine true).stmts [] p := hplain
  obtain ⟨cs', s₁', hres, hsame, ha⟩ := (Site.Alias.comparison ρ start start').stmts p hkind ha h
  obtain rfl : cs = cs' := hsame
  exact ⟨s₁', hres, ha⟩

/-! ### Function literals -/

/-- What a name means inside of a function literal of one parameter. -/
theorem Scope.resolve_enter_singleton (s : Scope) (parameter name : String) :
    (s.enter [parameter]).resolve name =
      if parameter = name then some (.own 0) else (s.resolve name).map Reference.fromInside := by
  rw [Scope.enter_eq_defineAll]
  exact Scope.resolve_define_function parameter name

/-- The same function literal but for its parameter, twice: it gets the same body, the same constants and
the same code, which differs only in where the constants of its unit are. -/
theorem resolveExpr_parameter {body : List Stmt} {scope : Scope} {offset : Nat}
    {rs : List Routine} {parameter parameter' : String} {t : Term} {s₁ : Site} (offset' : Nat)
    (rs' : List Routine)
    (hscope : ∀ name, ρ.fine name = true →
      ((scope.enter [parameter']).resolve (ρ.second name) =
        (scope.enter [parameter]).resolve (ρ.first name)))
    (hplain : Program.isPlain ρ.fine true body = true)
    (h : resolveExpr (.function [parameter] (Program.rename ρ.first body)) ⟨scope, offset, #[], rs⟩ =
      .ok (t, s₁)) :
    ∃ (constants : Array Value) (f : FunctionCode) (commands : List Command),
      f.constantsOffset = offset ∧
      (t, s₁) = Site.constant (.function f) ⟨scope, offset, constants, rs ++ [⟨f, commands⟩]⟩ ∧
      resolveExpr (.function [parameter'] (Program.rename ρ.second body)) ⟨scope, offset', #[], rs'⟩ =
        .ok (Site.constant (.function { f with constantsOffset := offset' })
          ⟨scope, offset', constants, rs' ++ [⟨{ f with constantsOffset := offset' }, commands⟩]⟩) := by
  obtain ⟨⟨commands, inner⟩, hbody, h⟩ := bind_eq_ok_iff.mp h
  have hstart : Site.Alias ρ ⟨scope.enter [parameter], offset, #[], rs⟩
      ⟨scope.enter [parameter'], offset', #[], rs'⟩ ⟨scope.enter [parameter], offset, #[], rs⟩
      ⟨scope.enter [parameter'], offset', #[], rs'⟩ :=
    ⟨hscope, rfl, rfl, rfl, rfl, rfl, rfl, rfl, rfl⟩
  -- The two bodies start at aliases, the one name of each being its parameter.
  obtain ⟨inner', hbody', halias⟩ := resolveStmts_alias hstart hplain hbody
  have hroutine : inner'.routine [parameter'] commands =
      ⟨{ (inner.routine [parameter] commands).code with constantsOffset := offset' }, commands⟩ := by
    unfold Site.routine
    rw [halias.offset', halias.slots]
    rfl
  refine ⟨inner.constants, (inner.routine [parameter] commands).code, commands, halias.offset, ?_,
    bind_eq_ok_iff.mpr ⟨_, hbody', ?_⟩⟩
  · cases h
    rw [halias.offset, halias.routines]
    rfl
  · show Except.ok (Site.constant (.function (inner'.routine [parameter'] commands).code)
      ⟨scope, inner'.offset, inner'.constants,
        inner'.routines ++ [inner'.routine [parameter'] commands]⟩) = _
    rw [halias.constants, halias.offset', halias.routines', hroutine]

end

end Notebook
