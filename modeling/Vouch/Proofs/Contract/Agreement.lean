import Vouch.Contract.Routine
import Vouch.Proofs.Contract.Call
import Vouch.Proofs.Flow.Body
import Vouch.Proofs.Lang.Composition

/-!
# One Contract, Two Readings

The routine assumes its preconditions and asserts its postconditions in its own
parameters, and a caller asserts the first and assumes the second in the actual ones. If
the two read different formulas, a caller may assume what no routine ever proved.

## Main definitions

* `Procedure.Unambiguous`: None of this happens.
* `Routine.SaysAtCall`: A clause says at a call what another says.

## Theorems

* `readings_agree`: Then the readings agree.
-/

namespace Vouch

open List

namespace Expr

section Lookup

variable {entries : List (String × Expr)} (h : (entries.map (·.1)).Nodup)
include h

theorem subst_var_ofList {x : String} {r : Expr} (hmem : (x, r) ∈ entries) :
    (var x).subst (.ofList entries) = r :=
  subst_var_of_some ((NameMap.find?_ofList h).mpr hmem)

theorem subst_var_ofList_of_not_mem {x : String} (hx : x ∉ entries.map (·.1)) :
    (var x).subst (.ofList entries) = var x := by
  refine subst_var_of_none (Option.eq_none_iff_forall_ne_some.mpr fun r hr => hx ?_)
  exact mem_map_of_mem ((NameMap.find?_ofList h).mp hr)

end Lookup

end Expr

namespace Procedure

/-- The names of the formal parameters. -/
def formalNames (p : Procedure) : List String :=
  (p.args ++ p.results).map VarDecl.name

/-- As many parameters are declared as there are. -/
structure Arity (p : Procedure) {α β : Type} (args : List α) (results : List β) : Prop where
  args : p.args.length = args.length
  results : p.results.length = results.length

theorem checkArity_eq_ok_iff {p : Procedure} {kind : ParamKind} {n : Nat} {u : Unit} :
    p.checkArity kind n = .ok u ↔ (p.params kind).length = n := by
  unfold checkArity
  by_cases h : (p.params kind).length = n
  · simp [h, pure, Except.pure]
  · simp [h, throw, throwThe, MonadExceptOf.throw]

theorem names_zip {γ : Type} {vs : List VarDecl} {bs : List γ} (h : vs.length = bs.length) :
    (vs.zip bs).map (fun q => q.1.name) = vs.map VarDecl.name := by
  have hfst : (vs.zip bs).map Prod.fst = vs := map_fst_zip h.le
  conv_rhs => rw [← hfst, map_map]
  rfl

section Call

variable {p : Procedure} {c : Call}

/-- What a call puts for parameters, the results first. -/
def callEntries (p : Procedure) (c : Call) : List (String × Expr) :=
  ((p.results.zip c.results).map fun q => (q.1.name, Expr.var q.2)) ++
    (p.args.zip c.args).map fun q => (q.1.name, q.2)

theorem keys_callEntries (h : p.Arity c.args c.results) :
    (p.callEntries c).map (·.1) = (p.results ++ p.args).map VarDecl.name := by
  rw [callEntries, map_append, map_map, map_map, map_append,
    ← names_zip h.results, ← names_zip h.args]
  rfl

theorem nodup_callEntries (h : p.Arity c.args c.results) (hnodup : p.formalNames.Nodup) :
    ((p.callEntries c).map (·.1)).Nodup := by
  rw [keys_callEntries h]
  exact (perm_append_comm.map VarDecl.name).nodup hnodup

theorem subst_callSubst (h : p.Arity c.args c.results) (hnodup : p.formalNames.Nodup)
    {x : String} {r : Expr} (hmem : (x, r) ∈ p.callEntries c) :
    (Expr.var x).subst (p.callSubst c) = r :=
  Expr.subst_var_ofList (nodup_callEntries h hnodup) hmem

theorem subst_callSubst_of_not_mem (h : p.Arity c.args c.results) (hnodup : p.formalNames.Nodup)
    {x : String} (hx : x ∉ p.formalNames) : (Expr.var x).subst (p.callSubst c) = .var x := by
  refine Expr.subst_var_ofList_of_not_mem (nodup_callEntries h hnodup) ?_
  rw [keys_callEntries h, (perm_append_comm.map VarDecl.name).mem_iff]
  exact hx

end Call

section Formals

variable {p : Procedure} {r : Routine}

/-- The parameters of the contract with those of the routine. -/
def formalPairs (p : Procedure) (r : Routine) : List (VarDecl × VarDecl) :=
  p.args.zip r.args ++ p.results.zip r.results

theorem names_formalPairs (h : p.Arity r.args r.results) :
    (p.formalPairs r).map (fun q => q.1.name) = p.formalNames := by
  rw [formalPairs, map_append, names_zip h.args, names_zip h.results, formalNames,
    map_append]

/-- What the routine puts for parameters whose names are others. -/
def formalEntries (p : Procedure) (r : Routine) : List (String × Expr) :=
  ((p.formalPairs r).filter fun q => q.1.name != q.2.name).map fun q =>
    (q.1.name, Expr.var q.2.name)

theorem keys_formalEntries : (p.formalEntries r).map (·.1) =
    ((p.formalPairs r).filter fun q => q.1.name != q.2.name).map fun q => q.1.name := by
  rw [formalEntries, map_map]
  rfl

theorem keys_formalEntries_sublist (h : p.Arity r.args r.results) :
    ((p.formalEntries r).map (·.1)).Sublist p.formalNames := by
  rw [keys_formalEntries, ← names_formalPairs h]
  exact filter_sublist.map _

theorem subst_formalSubst (h : p.Arity r.args r.results) (hnodup : p.formalNames.Nodup)
    {q : VarDecl × VarDecl} (hq : q ∈ p.formalPairs r) :
    (Expr.var q.1.name).subst (p.formalSubst r) = .var q.2.name := by
  have hkeys := hnodup.sublist (keys_formalEntries_sublist h)
  by_cases hsame : q.1.name = q.2.name
  · rw [← hsame]
    refine Expr.subst_var_ofList_of_not_mem hkeys fun hmem => ?_
    -- Another pair for the name would be a second parameter of that name.
    rw [keys_formalEntries] at hmem
    rcases mem_map.mp hmem with ⟨q', hq', heq⟩
    rcases mem_filter.mp hq' with ⟨hpair, hne⟩
    rw [← names_formalPairs h] at hnodup
    rw [inj_on_of_nodup_map hnodup hpair hq heq] at hne
    simp [hsame] at hne
  · refine Expr.subst_var_ofList hkeys (mem_map.mpr ⟨q, mem_filter.mpr ⟨hq, ?_⟩, rfl⟩)
    simpa using hsame

theorem subst_formalSubst_of_not_mem (h : p.Arity r.args r.results) (hnodup : p.formalNames.Nodup)
    {x : String} (hx : x ∉ p.formalNames) : (Expr.var x).subst (p.formalSubst r) = .var x := by
  have hkeys := keys_formalEntries_sublist h
  refine Expr.subst_var_ofList_of_not_mem (hnodup.sublist hkeys) fun hmem => ?_
  exact hx (hkeys.subset hmem)

theorem exists_formalPair (h : p.Arity r.args r.results) {x : String} (hx : x ∈ p.formalNames) :
    ∃ q ∈ p.formalPairs r, q.1.name = x := by
  rw [← names_formalPairs h] at hx
  exact mem_map.mp hx

theorem renames_formalSubst (h : p.Arity r.args r.results) (hnodup : p.formalNames.Nodup) :
    Expr.Renames (p.formalSubst r) := by
  intro x
  by_cases hx : x ∈ p.formalNames
  · rcases exists_formalPair h hx with ⟨q, hq, rfl⟩
    exact ⟨q.2.name, subst_formalSubst h hnodup hq⟩
  · exact ⟨x, subst_formalSubst_of_not_mem h hnodup hx⟩

end Formals

end Procedure

/-- The parameters of a routine without anything promised about them. -/
def Routine.signature (r : Routine) : Procedure :=
  { name := r.name, args := r.args, results := r.results }

/-- With the actual parameters of the call for those of the routine, the first
    formula has in every state the value of the second. -/
def Routine.SaysAtCall (r : Routine) (c : Call) (e e' : Expr) : Prop :=
  ∀ (I : Interp) (s : Scope) (Γ : List (String × Ty)) (st : Assignment I.Value),
    I.value s (e.subst (r.signature.callSubst c)) Γ st = I.value s e' Γ st

namespace Procedure

/-- Parameters can be told apart by their names, those of the routine hide nothing
    that the contract mentions, and binders are not spelled like renamed ones. -/
structure Unambiguous (p : Procedure) (r : Routine) : Prop where
  formals : p.formalNames.Nodup
  actuals : r.signature.formalNames.Nodup
  visible : ∀ e ∈ p.requires ++ p.ensures, ∀ x ∈ e.freeVars, x ∈ r.signature.formalNames →
    x ∈ p.formalNames
  clear : ∀ e ∈ p.requires ++ p.ensures, e.ClearBinders

variable {p : Procedure} {r : Routine} {c : Call}

theorem exists_zip_of_mem_zip {α β γ : Type} : ∀ {as : List α} {bs : List β} {cs : List γ}
    {q : α × β}, q ∈ as.zip bs → as.length = cs.length →
    ∃ d, (q.1, d) ∈ as.zip cs ∧ (q.2, d) ∈ bs.zip cs
  | [], _, _, _, h, _ => by simp at h
  | _ :: _, [], _, _, h, _ => by simp at h
  | a :: as, b :: bs, [], _, _, hlength => by simp at hlength
  | a :: as, b :: bs, c :: cs, q, h, hlength => by
    rw [zip_cons_cons, mem_cons] at h
    rcases h with rfl | h
    · exact ⟨c, by simp, by simp⟩
    · rcases exists_zip_of_mem_zip h (by simpa using hlength) with ⟨d, ha, hb⟩
      exact ⟨d, by simp [ha], by simp [hb]⟩

theorem exists_callEntry (hc : p.Arity c.args c.results) {q : VarDecl × VarDecl}
    (hq : q ∈ p.formalPairs r) :
    ∃ d, (q.1.name, d) ∈ p.callEntries c ∧ (q.2.name, d) ∈ r.signature.callEntries c := by
  rcases mem_append.mp hq with hq | hq
  · rcases exists_zip_of_mem_zip hq hc.args with ⟨d, hp, hr⟩
    exact ⟨d, mem_append_right _ (mem_map.mpr ⟨_, hp, rfl⟩),
      mem_append_right _ (mem_map.mpr ⟨_, hr, rfl⟩)⟩
  · rcases exists_zip_of_mem_zip hq hc.results with ⟨w, hp, hr⟩
    exact ⟨.var w, mem_append_left _ (mem_map.mpr ⟨_, hp, rfl⟩),
      mem_append_left _ (mem_map.mpr ⟨_, hr, rfl⟩)⟩

theorem subst_formalSubst_callSubst (h : p.Unambiguous r) (hr : p.Arity r.args r.results)
    (hc : p.Arity c.args c.results) {x : String}
    (hx : x ∈ r.signature.formalNames → x ∈ p.formalNames) :
    ((Expr.var x).subst (p.formalSubst r)).subst (r.signature.callSubst c) =
      (Expr.var x).subst (p.callSubst c) := by
  have hrc : r.signature.Arity c.args c.results :=
    ⟨hr.args.symm.trans hc.args, hr.results.symm.trans hc.results⟩
  by_cases hformal : x ∈ p.formalNames
  · rcases exists_formalPair hr hformal with ⟨q, hq, rfl⟩
    rcases exists_callEntry hc hq with ⟨d, hp, hd⟩
    rw [subst_formalSubst hr h.formals hq, subst_callSubst hrc h.actuals hd,
      subst_callSubst hc h.formals hp]
  · rw [subst_formalSubst_of_not_mem hr h.formals hformal,
      subst_callSubst_of_not_mem hc h.formals hformal,
      subst_callSubst_of_not_mem hrc h.actuals fun hmem => hformal (hx hmem)]

theorem saysAtCall_subst (h : p.Unambiguous r) (hr : p.Arity r.args r.results)
    (hc : p.Arity c.args c.results) {e : Expr} (he : e ∈ p.requires ++ p.ensures) :
    r.SaysAtCall c (e.subst (p.formalSubst r)) (e.subst (p.callSubst c)) := by
  intro I s Γ st
  refine Expr.value_subst_subst (h.clear e he) (renames_formalSubst hr h.formals) fun x hx => ?_
  exact subst_formalSubst_callSubst h hr hc (h.visible e he x hx)

end Procedure

theorem Procedure.expandCall_eq_ok {p : Procedure} {labels : List String} {c : Call}
    {cmds : List Command} (h : p.expandCall labels c = .ok cmds) :
    p.Arity c.args c.results ∧ cmds = labelFirst labels (p.contractCommands (p.callSubst c)) := by
  simp only [expandCall, bind_eq_ok_iff, checkArity_eq_ok_iff] at h
  rcases h with ⟨_, hresults, _, hargs, h⟩
  cases h
  exact ⟨⟨hargs, hresults⟩, rfl⟩

/-- The routine's own code, with jumps out of it sent to the postconditions. -/
def Routine.code (r : Routine) (p : Procedure) : Body :=
  if p.ensures.isEmpty then r.body else r.body.map Command.toExit

theorem Routine.inlineContract_eq_ok_iff {r r' : Routine} {p : Procedure} :
    r.inlineContract p = .ok r' ↔ (p.requires ++ p.ensures ≠ [] → p.Arity r.args r.results) ∧
      r' = { r with
        body := (p.requires.map fun e => Command.assume (e.subst (p.formalSubst r))) ++ r.code p ++
          exitBlock (p.ensures.map (Expr.subst (p.formalSubst r))) } := by
  unfold inlineContract
  by_cases hnone : (p.requires.isEmpty && p.ensures.isEmpty) = true
  · rw [if_pos hnone]
    rw [Bool.and_eq_true, List.isEmpty_iff, List.isEmpty_iff] at hnone
    simp only [hnone.1, hnone.2, code, exitBlock, pure, Except.pure, Except.ok.injEq]
    simpa using eq_comm
  · rw [if_neg hnone]
    have hsome : p.requires ++ p.ensures ≠ [] := by simpa using hnone
    simp only [bind_eq_ok_iff, Procedure.checkArity_eq_ok_iff, pure, Except.pure, Except.ok.injEq]
    constructor
    · rintro ⟨_, hargs, _, hresults, rfl⟩
      exact ⟨fun _ => ⟨hargs, hresults⟩, rfl⟩
    · rintro ⟨harity, rfl⟩
      exact ⟨(), (harity hsome).args, (), (harity hsome).results, rfl⟩

/-- **Callers and routines read the same contract.** A routine that is accepted
    assumes formulas at its entry and asserts others at its exit, as many as there
    are clauses, and a call that is accepted asserts and assumes as many. With the
    actual parameters for those of the routine, each formula of the routine has in
    every state the value of the caller's. -/
theorem readings_agree {p : Procedure} {r r' : Routine} {labels : List String} {c : Call}
    {cmds : List Command} (h : p.Unambiguous r) (hr : r.inlineContract p = .ok r')
    (hc : p.expandCall labels c = .ok cmds) :
    ∃ assumed asserted required ensured : List Expr,
      r'.body = assumed.map Command.assume ++ r.code p ++ Routine.exitBlock asserted ∧
      cmds = Procedure.labelFirst labels (required.map Command.assert ++
        p.modifies.map (fun clause =>
          Command.havoc (clause.map (Procedure.actualName (p.callSubst c)))) ++
        ensured.map Command.assume) ∧
      assumed.length = p.requires.length ∧ asserted.length = p.ensures.length ∧
      Forall₂ (r.SaysAtCall c) assumed required ∧
      Forall₂ (r.SaysAtCall c) asserted ensured := by
  rcases Routine.inlineContract_eq_ok_iff.mp hr with ⟨harity, rfl⟩
  rcases Procedure.expandCall_eq_ok hc with ⟨hcall, hcmds⟩
  have hclause : ∀ e ∈ p.requires ++ p.ensures,
      r.SaysAtCall c (e.subst (p.formalSubst r)) (e.subst (p.callSubst c)) := fun e he =>
    Procedure.saysAtCall_subst h (harity (ne_nil_of_mem he)) hcall he
  have hclauses : ∀ es : List Expr, (∀ e ∈ es, e ∈ p.requires ++ p.ensures) →
      Forall₂ (r.SaysAtCall c) (es.map (Expr.subst (p.formalSubst r)))
        (es.map (Expr.subst (p.callSubst c))) := by
    intro es hes
    rw [forall₂_map_left_iff, forall₂_map_right_iff, forall₂_same]
    exact fun e he => hclause e (hes e he)
  refine ⟨p.requires.map (Expr.subst (p.formalSubst r)),
    p.ensures.map (Expr.subst (p.formalSubst r)),
    p.requires.map (Expr.subst (p.callSubst c)), p.ensures.map (Expr.subst (p.callSubst c)),
    ?_, ?_, length_map _, length_map _,
    hclauses _ fun e he => mem_append_left _ he,
    hclauses _ fun e he => mem_append_right _ he⟩
  · rw [map_map]
    rfl
  · rw [hcmds, Procedure.contractCommands, map_map, map_map]
    rfl

section Sample

/-- A procedure that returns a map with values up to a bound. -/
def capped : Procedure where
  name := "capped"
  args := [⟨"bound", .int⟩]
  results := [⟨"m", .map [.int] .int⟩]
  requires := [.le (.int 0) (.var "bound")]
  modifies := [["m"]]
  ensures := [.all [⟨"i", .int⟩] (.le (.select (.var "m") [.var "i"]) (.var "bound"))]

/-- Its code calls the bound what the contract calls an index. -/
def cappedCode : Routine :=
  { name := "capped", args := [⟨"i", .int⟩], results := [⟨"m", .map [.int] .int⟩]
    body := [.goto []] }

/-- The actual bound mentions a variable of that name, too. -/
def cappedCall : Call :=
  { callee := "capped", results := ["cache"], args := [.add (.var "i") (.int 1)] }

theorem readings_agree_capped : capped.Unambiguous cappedCode ∧
    ∃ r' cmds, cappedCode.inlineContract capped = .ok r' ∧
      capped.expandCall ["here"] cappedCall = .ok cmds ∧
    ∃ assumed asserted required ensured : List Expr,
      r'.body = assumed.map Command.assume ++ [.goto [exitLabel]] ++ Routine.exitBlock asserted ∧
      cmds = Procedure.labelFirst ["here"] (required.map Command.assert ++ [.havoc ["cache"]] ++
        ensured.map Command.assume) ∧
      assumed.length = 1 ∧ asserted.length = 1 ∧
      Forall₂ (cappedCode.SaysAtCall cappedCall) assumed required ∧
      Forall₂ (cappedCode.SaysAtCall cappedCall) asserted ensured := by
  have hvisible : ∀ e ∈ capped.requires ++ capped.ensures, ∀ x ∈ e.freeVars.toList,
      x ∈ cappedCode.signature.formalNames → x ∈ capped.formalNames := by
    decide
  have hunambiguous : capped.Unambiguous cappedCode := by
    refine ⟨by decide, by decide, hvisible, fun e he => ?_⟩
    simp only [capped, mem_append, mem_singleton] at he
    rcases he with rfl | rfl
    · exact ⟨trivial, trivial⟩
    · refine ⟨fun v hv => Or.inl ?_, ⟨trivial, trivial, trivial⟩, trivial⟩
      rw [mem_singleton.mp hv]
      decide
  have hcode : cappedCode.inlineContract capped = .ok _ := rfl
  have hcall : capped.expandCall ["here"] cappedCall = .ok _ := rfl
  exact ⟨hunambiguous, _, _, hcode, hcall, readings_agree hunambiguous hcode hcall⟩

end Sample

end Vouch
