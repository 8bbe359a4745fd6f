import Vouch.Contract.Call
import Vouch.Proofs.Lang.Execution
import Vouch.Proofs.Lang.Substitution

/-!
# What a Call Stands For

A call is replaced by commands, and these should be able to do whatever the callee's
contract allows. A postcondition is about values from two states, and the commands have
only the one after the call to look at.

## Main definitions

* `Machine.Performs`: Commands lead from one state to another without failing.
* `Machine.Meets`: A clause holds after a call.

## Theorems

* `expandCall_performs_iff`: The commands do exactly what the contract allows.
-/

namespace Vouch

open List

namespace Machine

variable {s : Scope} {M : Machine s}

/-- The commands lead from one state to the other one after the other, and
    every assertion among them holds. -/
def Performs (M : Machine s) : List Command → M.St → M.St → Prop
  | [], a, b => b = a
  | c :: cs, a, b => ∃ m, M.Does true c.action a m ∧ M.Performs cs m b

variable {b : M.St}

theorem performs_append {ds : List Command} : ∀ {cs : List Command} {a : M.St},
    M.Performs (cs ++ ds) a b ↔ ∃ m, M.Performs cs a m ∧ M.Performs ds m b
  | [], a => by simp [Performs]
  | c :: cs, a => by
    simp only [cons_append, Performs, performs_append]
    constructor
    · rintro ⟨m, hm, k, hk, hb⟩
      exact ⟨k, ⟨m, hm, hk⟩, hb⟩
    · rintro ⟨k, ⟨m, hm, hk⟩, hb⟩
      exact ⟨m, hm, k, hk, hb⟩

theorem performs_checks {f : Expr → Command} {P : Expr → M.St → Prop}
    (hf : ∀ e a b, M.Does true (f e).action a b ↔ b = a ∧ P e a) {a : M.St} :
    ∀ {es : List Expr}, M.Performs (es.map f) a b ↔ b = a ∧ ∀ e ∈ es, P e a
  | [] => by simp [Performs]
  | e :: es => by
    simp only [map_cons, Performs, hf]
    constructor
    · rintro ⟨m, ⟨rfl, he⟩, hrest⟩
      rw [performs_checks hf] at hrest
      exact ⟨hrest.1, forall_mem_cons.mpr ⟨he, hrest.2⟩⟩
    · rintro ⟨rfl, hes⟩
      rw [forall_mem_cons] at hes
      exact ⟨b, ⟨rfl, hes.1⟩, (performs_checks hf).mpr ⟨rfl, hes.2⟩⟩

/-- The state that is the second one at the variables and the first elsewhere. -/
def mix (a b : M.St) (vars : List String) : M.St where
  get x := if x ∈ vars then b.get x else a.get x
  fits x T hT := by
    dsimp only
    by_cases hx : x ∈ vars
    · rw [if_pos hx]
      exact b.fits x T hT
    · rw [if_neg hx]
      exact a.fits x T hT

theorem performs_havocs : ∀ {clauses : List (List String)} {a : M.St},
    M.Performs (clauses.map Command.havoc) a b ↔ ∀ x, x ∉ clauses.flatten → b.get x = a.get x
  | [], a => by
    simp only [map_nil, Performs, flatten_nil, not_mem_nil, not_false_eq_true,
      true_imp_iff]
    exact ⟨fun h x => by rw [h], State.ext⟩
  | vars :: clauses, a => by
    simp only [map_cons, Performs, performs_havocs, flatten_cons, mem_append, not_or]
    constructor
    · rintro ⟨m, hm, hb⟩ x hx
      rw [hb x hx.2]
      exact hm x hx.1
    · intro h
      refine ⟨mix a b vars, fun x hx => if_neg hx, fun x hx => ?_⟩
      by_cases hv : x ∈ vars
      · exact (if_pos hv).symm
      · exact (h x ⟨hv, hx⟩).trans (if_neg hv).symm

end Machine

namespace Procedure

/-- The call passes as many arguments and results as are declared, each of the
    declared type. -/
structure Accepts (s : Scope) (p : Procedure) (c : Call) : Prop where
  results_length : p.results.length = c.results.length
  args_length : p.args.length = c.args.length
  results_type : ∀ q ∈ p.results.zip c.results, s.varType? q.2 = some q.1.ty
  args_type : ∀ q ∈ p.args.zip c.args, s.infer [] q.2 = some q.1.ty

theorem checkArity_eq_ok {p : Procedure} {n : Nat} (kind : ParamKind)
    (h : (p.params kind).length = n) : p.checkArity kind n = .ok () :=
  if_pos h

/-- The variables that the modifies clauses stand for at the call. -/
def changed (p : Procedure) (c : Call) : List String :=
  p.modifies.flatten.map (actualName (p.callSubst c))

/-- The formal parameters, results first. -/
def formals (p : Procedure) : List (String × Ty) :=
  (p.results ++ p.args).map fun v => (v.name, v.ty)

end Procedure

namespace Machine

variable {s : Scope} {M : Machine s} {p : Procedure} {c : Call} {a b : M.St}

theorem performs_labelFirst {labels : List String} : ∀ {cs : List Command},
    M.Performs (Procedure.labelFirst labels cs) a b ↔ M.Performs cs a b
  | [] => by
    have htrue : M.Holds (.bool true) a := (M.interp.holds_bool true).mpr rfl
    constructor
    · rintro ⟨m, ⟨rfl, _⟩, hb⟩
      exact hb
    · exact fun hb => ⟨a, ⟨rfl, htrue⟩, hb⟩
  | _ :: _ => Iff.rfl

theorem performs_contractCommands {σ : NameMap Expr} :
    M.Performs (p.contractCommands σ) a b ↔ (∀ e ∈ p.requires, M.Holds (e.subst σ) a) ∧
      (∀ x, x ∉ p.modifies.flatten.map (Procedure.actualName σ) → b.get x = a.get x) ∧
      ∀ e ∈ p.ensures, M.Holds (e.subst σ) b := by
  have hasserts : ∀ (e : Expr) (a b : M.St),
      M.Does true (Command.assert (e.subst σ)).action a b ↔ b = a ∧ M.Holds (e.subst σ) a :=
    fun e a b => and_congr_right fun _ => ⟨fun h => h rfl, fun h _ => h⟩
  have hassumes : ∀ (e : Expr) (a b : M.St),
      M.Does true (Command.assume (e.subst σ)).action a b ↔ b = a ∧ M.Holds (e.subst σ) a :=
    fun _ _ _ => Iff.rfl
  have hhavocs : p.modifies.map (fun clause => Command.havoc (clause.map (Procedure.actualName σ)))
      = (p.modifies.map (List.map (Procedure.actualName σ))).map Command.havoc := by
    rw [map_map]
    rfl
  rw [Procedure.contractCommands, performs_append, hhavocs, map_flatten]
  constructor
  · rintro ⟨m, hm, hb⟩
    rcases performs_append.mp hm with ⟨k, hk, hforget⟩
    rcases (performs_checks hasserts).mp hk with ⟨rfl, hpre⟩
    rcases (performs_checks hassumes).mp hb with ⟨rfl, hpost⟩
    exact ⟨hpre, performs_havocs.mp hforget, hpost⟩
  · rintro ⟨hpre, hframe, hpost⟩
    have hm := performs_append.mpr ⟨a, (performs_checks hasserts).mpr ⟨rfl, hpre⟩,
      performs_havocs.mpr hframe⟩
    exact ⟨b, hm, (performs_checks hassumes).mpr ⟨rfl, hpost⟩⟩

/-- The state in which a clause is read. The formal results have the values of
    the receiving variables in `b`, and the formal arguments the values of the
    actual ones in `a`. Of a parameter that is both, the argument counts. -/
noncomputable def passed (M : Machine s) (p : Procedure) (c : Call) (a b : M.St) :
    Assignment M.interp.Value :=
  (p.args.zip c.args).foldl
    (fun st q => Function.update st q.1.name (M.interp.value s q.2 [] a.get))
    ((p.results.zip c.results).foldl (fun st q => Function.update st q.1.name (b.get q.2)) b.get)

/-- The clause holds after the call if `a` is the state before it and `b` the
    state after it. -/
def Meets (M : Machine s) (p : Procedure) (c : Call) (e : Expr) (a b : M.St) : Prop :=
  M.interp.Holds (M.interp.value s e p.formals (M.passed p c a b))

theorem stands_insertAll {I : Interp} {st' : Assignment I.Value} :
    ∀ {qs : List (VarDecl × Expr)} {σ : NameMap Expr} {Γ : List (String × Ty)}
    {st : Assignment I.Value}, (∀ q ∈ qs, s.infer [] q.2 = some q.1.ty) →
    (∀ x, s.Stands I Γ st s [] st' x ((Expr.var x).subst σ)) →
    ∀ x, s.Stands I (Γ ++ qs.map fun q => (q.1.name, q.1.ty))
      (qs.foldl (fun st q => Function.update st q.1.name (I.value s q.2 [] st')) st) s [] st' x
      ((Expr.var x).subst (σ.insertAll (qs.map fun q => (q.1.name, q.2))))
  | [], _, _, _, _, h => by simpa [NameMap.insertAll] using h
  | q :: qs, σ, Γ, st, htypes, h => by
    rw [forall_mem_cons] at htypes
    have hstep : ∀ x, s.Stands I (Γ ++ [(q.1.name, q.1.ty)])
        (Function.update st q.1.name (I.value s q.2 [] st')) s [] st' x
        ((Expr.var x).subst (σ.insert q.1.name q.2)) := by
      intro x
      rw [Scope.Stands, Scope.infer_var_concat]
      by_cases hx : x = q.1.name
      · rw [if_pos hx, hx, Expr.subst_var_insert_self, Function.update_self]
        exact ⟨htypes.1, rfl⟩
      · rw [if_neg hx, Expr.subst_var_insert_of_ne hx, Function.update_of_ne hx]
        exact h x
    have hrest := stands_insertAll htypes.2 hstep
    rw [append_assoc, singleton_append] at hrest
    exact hrest

theorem map_decl_zip {β : Type} {vs : List VarDecl} {bs : List β} (h : vs.length = bs.length) :
    (vs.zip bs).map (fun q => (q.1.name, q.1.ty)) = vs.map fun v => (v.name, v.ty) := by
  have hfst : (vs.zip bs).map Prod.fst = vs := map_fst_zip h.le
  calc (vs.zip bs).map (fun q => (q.1.name, q.1.ty))
      = ((vs.zip bs).map Prod.fst).map fun v => (v.name, v.ty) := by
        rw [map_map]
        rfl
    _ = vs.map fun v => (v.name, v.ty) := by rw [hfst]

theorem stands_callSubst (hfits : p.Accepts s c) (b : M.St) (x : String) :
    s.Stands M.interp p.formals (M.passed p c b b) s [] b.get x
      ((Expr.var x).subst (p.callSubst c)) := by
  have hresults : ∀ q ∈ (p.results.zip c.results).map fun q => (q.1, Expr.var q.2),
      s.infer [] q.2 = some q.1.ty := by
    intro q hq
    rcases mem_map.mp hq with ⟨r, hr, rfl⟩
    exact hfits.results_type r hr
  have hempty : ∀ x, s.Stands M.interp [] b.get s [] b.get x ((Expr.var x).subst .empty) :=
    fun x => ⟨rfl, by rw [Expr.subst_var_of_none rfl, Interp.value]⟩
  -- First the results are passed, then the arguments.
  have hstands := stands_insertAll hfits.args_type (stands_insertAll hresults hempty) x
  have hresultDecls : ((p.results.zip c.results).map fun q => (q.1, Expr.var q.2)).map
      (fun q => (q.1.name, q.1.ty)) = p.results.map fun v => (v.name, v.ty) := by
    rw [map_map]
    exact map_decl_zip hfits.results_length
  have hargDecls := map_decl_zip hfits.args_length
  have hsubst : p.callSubst c = (NameMap.insertAll .empty
      (((p.results.zip c.results).map fun q => (q.1, Expr.var q.2)).map fun q =>
        (q.1.name, q.2))).insertAll ((p.args.zip c.args).map fun q => (q.1.name, q.2)) := by
    rw [NameMap.insertAll, NameMap.insertAll, ← foldl_append, map_map]
    rfl
  rw [hresultDecls, hargDecls, nil_append, ← map_append, ← hsubst, foldl_map]
    at hstands
  exact hstands

theorem holds_subst_iff (hfits : p.Accepts s c) {e : Expr} (he : e.ClearBinders) (b : M.St) :
    M.Holds (e.subst (p.callSubst c)) b ↔ M.Meets p c e b b := by
  have hvalue := Expr.value_subst rfl he.ordered fun x _ => stands_callSubst hfits b x
  rw [Holds, Meets, hvalue.2]

theorem passed_eq (hreads : ∀ e ∈ c.args, ∀ x ∈ e.freeVars, x ∉ p.changed c)
    (hframe : ∀ x, x ∉ p.changed c → b.get x = a.get x) : M.passed p c b b = M.passed p c a b := by
  have hvalue : ∀ q ∈ p.args.zip c.args,
      M.interp.value s q.2 [] b.get = M.interp.value s q.2 [] a.get := by
    intro q hq
    refine (Expr.value_congr_free fun x hx => ⟨rfl, ?_⟩).2
    exact hframe x (hreads q.2 (of_mem_zip hq).2 x hx)
  rw [passed, passed]
  exact foldl_ext _ _ _ fun st q hq => by rw [hvalue q hq]

end Machine

/-- A call with the declared parameters is replaced by commands that do what
    the contract allows and nothing else, provided that its receiving variables
    are among the modified ones and its arguments mention none of these. -/
theorem expandCall_performs_iff {s : Scope} (M : Machine s) {p : Procedure} {c : Call}
    (labels : List String) (hfits : p.Accepts s c)
    (hclear : ∀ e ∈ p.requires ++ p.ensures, e.ClearBinders)
    (hresults : ∀ w ∈ c.results, w ∈ p.changed c)
    (hreads : ∀ e ∈ c.args, ∀ x ∈ e.freeVars, x ∉ p.changed c) :
    ∃ cmds, p.expandCall labels c = .ok cmds ∧ ∀ a b : M.St, M.Performs cmds a b ↔
      (∀ e ∈ p.requires, M.Meets p c e a a) ∧
      (∀ x, x ∉ c.results → x ∉ p.changed c → b.get x = a.get x) ∧
      ∀ e ∈ p.ensures, M.Meets p c e a b := by
  have hcmds : p.expandCall labels c =
      .ok (Procedure.labelFirst labels (p.contractCommands (p.callSubst c))) := by
    rw [Procedure.expandCall, Procedure.checkArity_eq_ok .results hfits.results_length,
      Procedure.checkArity_eq_ok .arguments hfits.args_length]
    rfl
  refine ⟨_, hcmds, fun a b => ?_⟩
  rw [Machine.performs_labelFirst, Machine.performs_contractCommands]
  have hpre : ∀ e ∈ p.requires, (M.Holds (e.subst (p.callSubst c)) a ↔ M.Meets p c e a a) :=
    fun e he => Machine.holds_subst_iff hfits (hclear e (by simp [he])) a
  have hframe : (∀ x, x ∉ p.changed c → b.get x = a.get x) ↔
      ∀ x, x ∉ c.results → x ∉ p.changed c → b.get x = a.get x :=
    forall_congr' fun x => ⟨fun h _ => h, fun h hx => h (fun hw => hx (hresults x hw)) hx⟩
  rw [forall₂_congr hpre, ← hframe]
  refine and_congr_right fun _ => and_congr_right fun hsame => forall₂_congr fun e he => ?_
  rw [Machine.holds_subst_iff hfits (hclear e (by simp [he])), Machine.Meets, Machine.Meets,
    Machine.passed_eq hreads hsame]

section Sample

/-- Two numbers. -/
def numbersScope : Scope :=
  { globals := .ofList [("v", .int), ("w", .int)] }

/-- A procedure that returns the number after its argument. -/
def successor : Procedure where
  name := "successor"
  args := [⟨"n", .int⟩]
  results := [⟨"r", .int⟩]
  requires := [.le (.int 0) (.var "n")]
  modifies := [["r"]]
  ensures := [.eq (.var "r") (.add (.var "n") (.int 1))]

/-- A call that receives the result in the other number. -/
def successorCall : Call :=
  { callee := "successor", results := ["w"], args := [.var "v"] }

theorem expandCall_performs_iff_successor :
    successor.Accepts numbersScope successorCall ∧ successor.changed successorCall = ["w"] ∧
    ∃ cmds, successor.expandCall ["here"] successorCall = .ok cmds ∧
      ∀ a b : (Machine.withoutCalls numbersScope .trees).St,
        (Machine.withoutCalls numbersScope .trees).Performs cmds a b ↔
          (∀ e ∈ successor.requires, Machine.Meets _ successor successorCall e a a) ∧
          (∀ x, x ∉ ["w"] → x ∉ successor.changed successorCall → b.get x = a.get x) ∧
          ∀ e ∈ successor.ensures, Machine.Meets _ successor successorCall e a b := by
  have hfits : successor.Accepts numbersScope successorCall := by
    refine ⟨rfl, rfl, fun q hq => ?_, fun q hq => ?_⟩
    · rw [mem_singleton.mp hq]
      rfl
    · rw [mem_singleton.mp hq]
      rfl
  have hchanged : successor.changed successorCall = ["w"] := by decide
  refine ⟨hfits, hchanged, expandCall_performs_iff _ ["here"] hfits ?_ ?_ ?_⟩
  · intro e he
    simp only [successor, mem_append, mem_singleton] at he
    rcases he with rfl | rfl <;> exact ⟨trivial, by simp [Expr.ClearBinders, Expr.add]⟩
  · rw [hchanged]
    exact fun w hw => hw
  · rw [hchanged]
    decide

end Sample

end Vouch
