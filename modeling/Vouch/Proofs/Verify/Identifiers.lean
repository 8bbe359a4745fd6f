import Vouch.Proofs.Condition.Stratification
import Vouch.Proofs.Verify.Preparation

/-!
# Identifiers of Prepared Routines

Preparing a routine puts contracts in its body, with actual parameters for formal
ones. The identifiers come from the routine, from the contracts of the program, or from
one of these by the mark of renamed binders, which is only ever put on variables.

## Main definitions

* `Program.Spelled`: What is known of the names that matter for a routine.

## Theorems

* `Program.Spelled.prepare`: If the mark keeps it, it is known of the prepared routine.
-/

namespace Vouch

open List

namespace NameMap

variable {β : Type} {x : String} {v : β}

theorem find?_of_insertAll : ∀ {entries : List (String × β)} {m : NameMap β},
    (m.insertAll entries).find? x = some v → m.find? x = some v ∨ (x, v) ∈ entries
  | [], _, h => .inl h
  | e :: entries, m, h => by
    rcases find?_of_insertAll (m := m.insert e.1 e.2) h with h | h
    · rw [find?_insert] at h
      by_cases hx : x = e.1
      · rw [if_pos hx, Option.some.injEq] at h
        exact .inr (mem_cons.mpr (.inl (Prod.ext hx h.symm)))
      · rw [if_neg hx] at h
        exact .inl h
    · exact .inr (mem_cons_of_mem _ h)

theorem mem_of_find?_ofList {entries : List (String × β)}
    (h : (ofList entries).find? x = some v) : (x, v) ∈ entries :=
  (find?_of_insertAll h).resolve_left (by simp)

end NameMap

/-- The expressions of the action are spelled like that, and so are the variables
    that receive the results of a call. -/
structure Action.Spelled (N F : String → Prop) (a : Action) : Prop where
  exprs : ∀ e ∈ a.exprs, e.Spelled N F
  results : ∀ site, a = .call site → ∀ x ∈ site.results, N x

/-- The names that matter for a routine: those of the variables that it can use,
    and those in its code, in contracts and in axioms. -/
structure Program.Spelled (N F : String → Prop) (p : Program) (r : Routine) : Prop where
  globals : ∀ v ∈ p.globals, N v.name
  declared : ∀ v ∈ r.declared, N v.name
  axioms : ∀ e ∈ p.axioms, e.Spelled N F
  requires : ∀ q ∈ p.procedures, ∀ e ∈ q.requires, e.Spelled N F
  ensures : ∀ q ∈ p.procedures, ∀ e ∈ q.ensures, e.Spelled N F
  body : ∀ c ∈ r.body, c.action.Spelled N F

theorem Program.Spelled.mono {N N' F F' : String → Prop} {p : Program} {r : Routine}
    (h : p.Spelled N F r) (hN : ∀ x, N x → N' x) (hF : ∀ f, F f → F' f) : p.Spelled N' F' r where
  globals v hv := hN _ (h.globals v hv)
  declared v hv := hN _ (h.declared v hv)
  axioms e he := (h.axioms e he).mono hN hF
  requires q hq e he := (h.requires q hq e he).mono hN hF
  ensures q hq e he := (h.ensures q hq e he).mono hN hF
  body c hc := ⟨fun e he => ((h.body c hc).exprs e he).mono hN hF,
    fun site hsite x hx => hN x ((h.body c hc).results site hsite x hx)⟩

section Preparing

variable {N F : String → Prop} {p : Program} {r r' : Routine}

theorem Action.spelled_assert {e : Expr} (h : e.Spelled N F) : (Action.assert e).Spelled N F :=
  ⟨by simpa [exprs] using h, by simp⟩

theorem Action.spelled_assume {e : Expr} (h : e.Spelled N F) : (Action.assume e).Spelled N F :=
  ⟨by simpa [exprs] using h, by simp⟩

theorem Action.spelled_havoc (vars : List String) : (Action.havoc vars).Spelled N F :=
  ⟨by simp [exprs], by simp⟩

theorem Action.Spelled.leave {c : Command} (h : c.action.Spelled N F) (exit : Option String) :
    (c.leave exit).action.Spelled N F := by
  unfold Command.leave Command.toExit
  split
  · split
    · exact ⟨by simp [Action.exprs], by simp⟩
    · exact h
  · exact h

theorem spelled_exitBlock {posts : List Expr} (h : ∀ e ∈ posts, e.Spelled N F) :
    ∀ c ∈ Routine.exitBlock posts, c.action.Spelled N F := by
  unfold Routine.exitBlock
  cases posts with
  | nil => simp
  | cons e es =>
    intro c hc
    rcases mem_cons.mp hc with rfl | hc
    · exact Action.spelled_assert (h e mem_cons_self)
    · rcases mem_map.mp hc with ⟨e', he', rfl⟩
      exact Action.spelled_assert (h e' (mem_cons_of_mem _ he'))

theorem Program.mem_of_procedure? {name : String} {q : Procedure}
    (h : (Scope.ofProgram p).procedure? name = some q) : q ∈ p.procedures := by
  rcases mem_map.mp (NameMap.mem_of_find?_ofList h) with ⟨q', hq', heq⟩
  cases heq
  exact hq'

variable {T : Ty} {x : String}

theorem Program.exists_global (hx : (Scope.ofProgram p).varType? x = some T) :
    ∃ v ∈ p.globals, v.name = x ∧ v.ty = T := by
  rcases mem_map.mp (NameMap.mem_of_find?_ofList hx) with ⟨v, hv, heq⟩
  cases heq
  exact ⟨v, hv, rfl, rfl⟩

theorem Program.exists_declaration (hx : ((Scope.ofProgram p).enter r).varType? x = some T) :
    ∃ v ∈ p.globals ++ r.declared, v.name = x ∧ v.ty = T := by
  unfold Scope.varType? at hx
  cases hlocal : ((Scope.ofProgram p).enter r).locals.find? x with
  | some U =>
    rw [hlocal] at hx
    rcases mem_map.mp (NameMap.mem_of_find?_ofList hlocal) with ⟨v, hv, heq⟩
    cases heq
    cases hx
    exact ⟨v, mem_append_right _ hv, rfl, rfl⟩
  | none =>
    rw [hlocal] at hx
    rcases Program.exists_global hx with ⟨v, hv, hvx⟩
    exact ⟨v, mem_append_left _ hv, hvx⟩

theorem Program.Spelled.of_varType? (h : p.Spelled N F r)
    (hx : ((Scope.ofProgram p).enter r).varType? x = some T) : N x := by
  rcases Program.exists_declaration hx with ⟨v, hv, rfl, _⟩
  exact (mem_append.mp hv).elim (h.globals v) (h.declared v)

theorem Action.Spelled.callSubst {site : Call} (h : (Action.call site).Spelled N F)
    (q : Procedure) : ∀ a ∈ (q.callSubst site).values, a.Spelled N F := by
  intro a ha
  rcases NameMap.mem_values_insertAll ha with ha | ⟨e, he, rfl⟩
  · cases ha
  · rcases mem_append.mp he with he | he
    · rcases mem_map.mp he with ⟨z, hz, rfl⟩
      exact h.results site rfl _ (of_mem_zip hz).2
    · rcases mem_map.mp he with ⟨z, hz, rfl⟩
      exact h.exprs _ (of_mem_zip hz).2

theorem Program.Spelled.formalSubst (h : p.Spelled N F r) (q : Procedure) :
    ∀ a ∈ (q.formalSubst r).values, a.Spelled N F := by
  intro a ha
  rcases NameMap.mem_values_insertAll ha with ha | ⟨e, he, rfl⟩
  · cases ha
  · rcases mem_map.mp he with ⟨z, hz, rfl⟩
    refine h.declared z.2 ?_
    unfold Routine.declared
    rcases mem_append.mp (mem_filter.mp hz).1 with hz | hz
    · simp [(of_mem_zip hz).2]
    · simp [(of_mem_zip hz).2]

theorem Scope.eq_of_prepare {s : Scope} (h : s.prepare r = .ok r') :
    r' = { r with body := r'.body } := by
  unfold Scope.prepare at h
  rcases bind_eq_ok_iff.mp h with ⟨_, _, h⟩
  rcases bind_eq_ok_iff.mp h with ⟨_, _, h⟩
  rcases bind_eq_ok_iff.mp h with ⟨_, _, h⟩
  cases hq : s.procedure? r.name with
  | none =>
    rw [hq] at h
    cases h
    rfl
  | some q =>
    rw [hq] at h
    obtain rfl := Routine.eq_of_inlineContract (eq_ok_of_mapError h)
    rfl

variable (hN : Expr.VariantClosed N)
include hN

theorem Procedure.spelled_contractCommands {q : Procedure} {σ : NameMap Expr}
    (hpre : ∀ e ∈ q.requires, e.Spelled N F) (hpost : ∀ e ∈ q.ensures, e.Spelled N F)
    (hσ : ∀ a ∈ σ.values, a.Spelled N F) :
    ∀ c ∈ q.contractCommands σ, c.action.Spelled N F := by
  intro c hc
  unfold Procedure.contractCommands at hc
  rcases mem_append.mp hc with hc | hc
  · rcases mem_append.mp hc with hc | hc
    · rcases mem_map.mp hc with ⟨e, he, rfl⟩
      exact Action.spelled_assert ((hpre e he).subst hN hσ)
    · rcases mem_map.mp hc with ⟨vars, _, rfl⟩
      exact Action.spelled_havoc _
  · rcases mem_map.mp hc with ⟨e, he, rfl⟩
    exact Action.spelled_assume ((hpost e he).subst hN hσ)

theorem Program.Spelled.expandCommand {s : Scope} (h : p.Spelled N F r)
    (hs : s.procedures = (Scope.ofProgram p).procedures) {c : Command} {ds : List Command}
    (hc : c.action.Spelled N F) (hds : s.expandCommand c = .ok ds) :
    ∀ d ∈ ds, d.action.Spelled N F := by
  unfold Scope.expandCommand at hds
  split at hds
  · next site hsite =>
    split at hds
    · next q hq =>
      have hmem : q ∈ p.procedures := by
        unfold Scope.procedure? at hq
        rw [hs] at hq
        exact Program.mem_of_procedure? hq
      rcases bind_eq_ok_iff.mp hds with ⟨_, _, hds⟩
      rcases bind_eq_ok_iff.mp hds with ⟨_, _, hds⟩
      cases hds
      rw [hsite] at hc
      have hall := Procedure.spelled_contractCommands hN (h.requires q hmem) (h.ensures q hmem)
        (hc.callSubst q)
      -- Only labels are moved, or a command without variables is put in.
      intro d hd
      cases hcommands : q.contractCommands (q.callSubst site) with
      | nil =>
        rw [hcommands] at hd
        rw [mem_singleton.mp hd]
        exact Action.spelled_assume trivial
      | cons e es =>
        rw [hcommands] at hd hall
        rcases mem_cons.mp hd with rfl | hd
        · exact hall e mem_cons_self
        · exact hall d (mem_cons_of_mem _ hd)
    · cases hds
  · cases hds
    intro d hd
    rw [mem_singleton.mp hd]
    exact hc

/-- Preparing a routine brings in the names of contracts and variants of names, and
    no others. -/
theorem Program.Spelled.prepare (h : p.Spelled N F r)
    (hr : (Scope.ofProgram p).prepare r = .ok r') : ∀ c ∈ r'.body, c.action.Spelled N F := by
  unfold Scope.prepare at hr
  rcases bind_eq_ok_iff.mp hr with ⟨g, hg, hr⟩
  rcases bind_eq_ok_iff.mp hr with ⟨havocked, hhavocked, hr⟩
  rcases bind_eq_ok_iff.mp hr with ⟨body, hbody, hr⟩
  rcases FlowGraph.insertHavocs_eq_ok (eq_ok_of_mapError hg) ((Scope.ofProgram p).enter r) with
    ⟨_, hok, hspliced, _⟩
  rw [eq_ok_of_mapError hhavocked] at hok
  cases hok
  -- Loops forget variables, which mentions nothing.
  have hcut : ∀ c ∈ havocked.body, c.action.Spelled N F := by
    rw [hspliced]
    intro c hc
    rcases LoopAnalysis.mem_spliced hc with ⟨vars, hact, _⟩ | ⟨d, hd, hact⟩
    · rw [hact]
      exact Action.spelled_havoc vars
    · rw [hact]
      exact h.body d hd
  -- Calls are replaced by contracts.
  have hcalls : ∀ c ∈ body, c.action.Spelled N F := by
    rcases bind_eq_ok_iff.mp (eq_ok_of_mapError hbody) with ⟨pieces, hpieces, hflat⟩
    cases hflat
    intro d hd
    rcases mem_flatten.mp hd with ⟨ds, hds, hd⟩
    rcases exists_of_forall₂_right (forall₂_of_mapM hpieces) hds with ⟨c, hc, hexpand⟩
    exact h.expandCommand hN rfl (hcut c hc) hexpand d hd
  cases hq : (Scope.ofProgram p).procedure? r.name with
  | none =>
    rw [hq] at hr
    cases hr
    exact hcalls
  | some q =>
    rw [hq] at hr
    obtain rfl := Routine.eq_of_inlineContract (eq_ok_of_mapError hr)
    have hmem := Program.mem_of_procedure? hq
    have hvalues := h.formalSubst q
    intro c hc
    rcases mem_append.mp hc with hc | hc
    · rcases mem_map.mp hc with ⟨e, he, rfl⟩
      exact Action.spelled_assume ((h.requires q hmem e he).subst hN hvalues)
    · rcases mem_append.mp hc with hc | hc
      · rcases mem_map.mp hc with ⟨d, hd, rfl⟩
        exact (hcalls d hd).leave q.exit?
      · refine spelled_exitBlock (fun e he => ?_) c hc
        rcases mem_map.mp he with ⟨post, hpost, rfl⟩
        exact (h.ensures q hmem post hpost).subst hN hvalues

end Preparing

end Vouch
