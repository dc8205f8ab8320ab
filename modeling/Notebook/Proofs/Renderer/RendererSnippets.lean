import Notebook.Proofs.Engine.Correctness
import Notebook.Proofs.Renderer.RendererNumbers
import Notebook.Proofs.Resolution.DeclaredNames
import Notebook.Proofs.Syntax.TokenConsumption

/-!
Snippets that make a renderer a function of the session.

* `Program.name_of_precompiled`: whatever the body of a renderer is, if the snippet for it is a program
  at all then the program starts with a `let` of the function's name.
* `SessionEngine.Sound.defines`: a snippet that is one `let` of a function literal binds its name to a
  function.
* `Context.function?_ofStore`: the context has every name that is bound to a function.
-/

namespace Notebook

/-! ### The text of the snippet -/

/-- The names of the session's functions for renderers are names. -/
theorem isName_methodName (id : Nat) : Token.isName (methodName id) = true := by
  have hchars : methodName id = String.ofList ('_' :: ("__renderResult".toList ++ id.repr.toList)) := by
    apply String.toList_inj.mp
    simp [methodName, toString]
  refine Token.isName_iff.mpr ⟨'_', _, hchars, rfl, ?_, ?_⟩
  · intro c hc
    rcases List.mem_append.mp hc with hc | hc
    · exact List.all_eq_true.mp (by decide) c hc
    · obtain ⟨d, digits, hrepr, hdigits⟩ := Token.isNumber_iff.mp (Token.isNumber_natRepr id)
      rw [hrepr, String.toList_ofList] at hc
      exact Token.continuesWord_of_isDigit (hdigits c hc)
  · -- Keywords start with letters.
    cases hkeyword : Keyword.ofSpelling? (methodName id) with
    | none => rfl
    | some k =>
      have hfirst := congrArg (fun word => word.toList.head?)
        ((Keyword.spelling_of_ofSpelling? hkeyword).trans hchars)
      cases k <;> simp [Keyword.spelling] at hfirst

/-- A token that is spelled in front of something that ends it is read. -/
theorem Token.ofChars_spelling {t : Token} (ht : t.isSpellable = true) {rest : List Char}
    (hrest : Token.Separated rest) : Token.ofChars (t.spelling ++ rest) = t :: Token.ofChars rest := by
  rw [Token.ofChars_eq, Token.next?_spelling ht hrest]

/-- The snippet for a renderer starts with `let` and the name. -/
theorem tokens_of_precompiled (body parameter : String) {name : String}
    (hname : Token.isName name = true) :
    ∃ rest, Token.ofSource (precompiledSource body name parameter) =
      .keyword .letBinding :: .ident name :: rest := by
  let rest := "= ".toList ++ (functionSource body parameter).toList ++ [';']
  have hsource : (precompiledSource body name parameter).toList =
      Token.spelling (.keyword .letBinding) ++
        ' ' :: (Token.spelling (.ident name) ++ ' ' :: rest) := by
    simp [precompiledSource, Token.spelling, Keyword.spelling, rest]
  have hblank : Text.isBlank ' ' = true := by decide
  have hspellable : (Token.ident name).isSpellable = true := hname
  refine ⟨Token.ofChars (' ' :: rest), ?_⟩
  unfold Token.ofSource
  rw [hsource, Token.ofChars_spelling rfl (Token.separated_of_isBlank hblank _),
    Token.ofChars_blank hblank,
    Token.ofChars_spelling hspellable (Token.separated_of_isBlank hblank _)]

/-- What the snippet for a renderer declares first is the name of the function. -/
theorem Program.name_of_precompiled {body parameter name : String} (hname : Token.isName name = true)
    {p : Program} (h : Program.ofSource (precompiledSource body name parameter) = .ok p) :
    ∃ value rest, p = .letIn name value :: rest := by
  obtain ⟨ts, htokens⟩ := tokens_of_precompiled body parameter hname
  have hexhausts := (Program.consumes_of_ofSource h).1
  rw [htokens] at hexhausts
  cases hexhausts with
  | next hfirst _ =>
    obtain ⟨rest, -, hfirst⟩ := bind_eq_ok_iff.mp hfirst
    obtain ⟨⟨value, rest'⟩, -, hfirst⟩ := bind_eq_ok_iff.mp hfirst
    cases hfirst
    exact ⟨value, _, rfl⟩

/-! ### The function in the store -/

theorem Machine.getElem?_assign (g : Array Value) (i : Nat) (v : Value) :
    (assign g i v)[i]? = some v := by
  unfold assign
  split
  · rw [Array.getElem?_setIfInBounds_self_of_lt ‹_›]
  · have hsize : (g ++ Array.replicate (i - g.size) Value.null).size = i := by
      rw [Array.size_append, Array.size_replicate]
      omega
    have hlast : ((g ++ Array.replicate (i - g.size) Value.null).push v)[
        (g ++ Array.replicate (i - g.size) Value.null).size]? = some v := Array.getElem?_push_size
    rwa [hsize] at hlast

/-- A `let` of a function literal assigns the function to the next slot. -/
theorem eq_setGlobal_of_resolveStmts {name : String} {params : List String} {body : List Stmt}
    {s s' : Site} {commands : List Command} (hs : s.scope.isSession = true)
    (h : resolveStmts [.letIn name (.function params body)] s = .ok (commands, s')) :
    ∃ k f, commands = [.setGlobal s.scope.slots (.constant k (.function f))] := by
  obtain ⟨scope, offset, constants, routines⟩ := s
  cases scope with
  | function level enclosing => cases hs
  | session level =>
    obtain ⟨⟨c, s₁⟩, hstatement, h⟩ := bind_eq_ok_iff.mp h
    obtain ⟨⟨t, s₂⟩, hfunction, hstatement⟩ := bind_eq_ok_iff.mp hstatement
    obtain ⟨⟨inner, s₃⟩, -, hfunction⟩ := bind_eq_ok_iff.mp hfunction
    cases hfunction
    cases hstatement
    cases h
    exact ⟨_, _, rfl⟩

/-- A snippet that is one `let`, and assigns a function to the next slot, binds its name to it. -/
theorem SessionEngine.Sound.binds {config : Config} {e e' : SessionEngine} {r : Record}
    {n : SnippetId} {source : String} {value : Option Value} {u : CompiledUnit}
    {stored : SerializedUnit} {place : Site} {name : String} {params : List String}
    {body : List Stmt} {k : Nat} {f : FunctionCode} (hs : e.Sound config r)
    (h : Kept r.routines n source value e e' [.letIn name (.function params body)] u stored
      [.setGlobal e.compiler.compiler.scope.slots (.constant k (.function f))] place) :
    ∃ i, e'.evaluator.bindings.get? name = some ⟨i, n⟩ ∧
      e'.evaluator.globals[i]? = some (.function f) := by
  have hsession := hs.inStep.session
  have hscope : e'.compiler.compiler.scope = e.compiler.compiler.scope.define name := h.compiled.scope
  -- The name refers to the next slot, and the snippet has bound it.
  have hname : e'.compiler.compiler.scope.resolve name =
      some (.global e.compiler.compiler.scope.slots) := by
    rw [hscope]
    cases hlevel : e.compiler.compiler.scope with
    | function level enclosing =>
      rw [hlevel] at hsession
      cases hsession
    | session level =>
      rw [Scope.resolve_define, if_pos rfl]
      rfl
  have hdeclared : ∃ d ∈ u.declarations, d.name = name := by
    obtain ⟨d, hd, hsame⟩ := (Compiler.compile_introduces
      (congrArg Compiler.declarations hs.inStep.idle) hsession hs.inStep.valid h.compiles).named
        name _ hname (Nat.le_refl _)
    exact ⟨d, List.mem_toArray.mp hd, hsame⟩
  obtain ⟨i, hbound⟩ := Store.line_of_bind (n := u.snippet) (t := e.evaluator.bindings) hdeclared
  rw [← Store.bindings_of_finished h.ran, h.compiled.snippet] at hbound
  -- Scope and bindings agree in the engine afterwards, so it is bound to the next slot.
  have hindex := ((hs.kept h).names name _).mp hname
  rw [hbound] at hindex
  cases hindex
  -- Running the snippet assigns that slot.
  obtain ⟨-, -, hrun⟩ := Store.run_eq hs.linked h.compiled hs.inStep ⟨n, e.compiler.maxCallDepth⟩
  have hglobals : e'.evaluator.globals = Machine.assign
      (Store.padded e.evaluator.globals u.globals) e.compiler.compiler.scope.slots (.function f) :=
    congrArg (fun out => out.2.globals) (h.ran.symm.trans hrun)
  refine ⟨_, hbound, ?_⟩
  rw [hglobals]
  exact Machine.getElem?_assign _ _ _

/-- A snippet that is one `let` of a function literal binds its name to a function. -/
theorem SessionEngine.Sound.defines {config : Config} {e e' : SessionEngine} {r : Record}
    {n : SnippetId} {source : String} {value : Option Value} {u : CompiledUnit}
    {stored : SerializedUnit} {commands : List Command} {place : Site} {name : String}
    {params : List String} {body : List Stmt} (hs : e.Sound config r)
    (h : Kept r.routines n source value e e' [.letIn name (.function params body)] u stored commands
      place) :
    ∃ i f, e'.evaluator.bindings.get? name = some ⟨i, n⟩ ∧
      e'.evaluator.globals[i]? = some (.function f) := by
  obtain ⟨k, f, rfl⟩ := eq_setGlobal_of_resolveStmts hs.inStep.session h.compiled.resolved
  obtain ⟨i, hbound, hvalue⟩ := hs.binds h
  exact ⟨i, f, hbound, hvalue⟩

/-! ### The function in the context -/

namespace NameTable

variable {α : Type} {t : NameTable α} {name : String} {v : α}

theorem mem_of_get? (h : t.get? name = some v) : (name, v) ∈ t.entries := by
  obtain ⟨entries⟩ := t
  induction entries with
  | nil => cases h
  | cons entry rest ih =>
    obtain ⟨key, w⟩ := entry
    simp only [get?, lookup] at h
    split at h
    · rename_i hkey
      cases hkey
      cases h
      exact List.mem_cons_self
    · exact List.mem_cons_of_mem _ (ih h)

end NameTable

namespace Context

/-- Names that are added to a context leave all others alone. -/
theorem function?_foldl_of_notMem (s : Store) {name : String} :
    ∀ (bindings : List (String × Binding)) (c : Context), name ∉ bindings.map (·.1) →
      (bindings.foldl (fun c entry => c.add entry.1 (entryOf s entry.2)) c).function? name =
        c.function? name := by
  intro bindings
  induction bindings with
  | nil => exact fun c _ => rfl
  | cons binding rest ih =>
    intro c h
    obtain ⟨hother, hrest⟩ := List.ne_and_not_mem_of_not_mem_cons h
    refine (ih _ hrest).trans ?_
    show (c.add binding.1 (entryOf s binding.2)).function? name = c.function? name
    unfold add
    split
    · exact (NameTable.get?_insert _ _ _ _).trans (if_neg hother.symm)
    · rfl

/-- A name that is bound to a function is a function of the context. -/
theorem function?_ofStore {s : Store} (hnodup : s.bindings.names.Nodup) {name : String} {b : Binding}
    {f : FunctionCode} (hbound : s.bindings.get? name = some b)
    (hvalue : s.globals[b.index]? = some (.function f)) :
    (ofStore s).function? name = some ⟨.function f, b.line⟩ := by
  obtain ⟨before, after, hentries⟩ := List.append_of_mem (NameTable.mem_of_get? hbound)
  have hentry : entryOf s b = ⟨.function f, b.line⟩ := by
    unfold entryOf
    rw [hvalue]
    rfl
  have hafter : name ∉ after.map (·.1) := by
    unfold NameTable.names at hnodup
    rw [hentries, List.map_append, List.map_cons] at hnodup
    exact (List.nodup_cons.mp hnodup.of_append_right).1
  unfold ofStore
  rw [hentries, List.foldl_append, List.foldl_cons, function?_foldl_of_notMem s after _ hafter, hentry]
  exact (NameTable.get?_insert _ _ _ _).trans (if_pos rfl)

end Context

end Notebook
