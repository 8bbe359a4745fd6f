import Vouch.Proofs.Contract.Agreement
import Vouch.Proofs.Flow.Loops

/-!
# What a Call Writes, Before and After It Is Replaced

Loops are made to forget what they write while calls are still calls. A call writes its
results and the names in the modifies clauses as they are, and the commands that replace
it write what these names stand for.

## Main definitions

* `Procedure.Discloses`: Such variables receive a result or are named by the clauses.

## Theorems

* `expandCall_writes_iff`: It is exact to ask this.
-/

namespace Vouch

open List

theorem NameMap.find?_insertAll_eq {β : Type} {x : String} : ∀ {entries : List (String × β)}
    {m : NameMap β}, (m.insertAll entries).find? x =
      ((entries.reverse.find? (·.1 == x)).map (·.2)).or (m.find? x)
  | [], m => by simp [insertAll]
  | e :: entries, m => by
    have hinsert : m.insertAll (e :: entries) = (m.insert e.1 e.2).insertAll entries := rfl
    rw [hinsert, find?_insertAll_eq, find?_insert, reverse_cons, find?_append]
    cases entries.reverse.find? (·.1 == x) with
    | some _ => simp
    | none =>
      by_cases hx : x = e.1
      · simp [hx]
      · simp [hx, Ne.symm hx]

namespace Procedure

/-- What the call passes for a formal argument. Of arguments with one name the last
    counts. -/
def argument? (p : Procedure) (c : Call) (x : String) : Option Expr :=
  ((p.args.zip c.args).reverse.find? (·.1.name == x)).map (·.2)

/-- Where the call passes a variable for an argument that the contract lets change, the
    variable receives a result or is one that the contract names. -/
def Discloses (p : Procedure) (c : Call) : Prop :=
  ∀ x ∈ p.modifies.flatten, ∀ y, p.argument? c x = some (.var y) →
    y ∈ c.results ∨ y ∈ p.modifies.flatten

variable {p : Procedure} {c : Call} {x : String}

theorem find?_callSubst : (p.callSubst c).find? x = (p.argument? c x).or
    (((p.results.zip c.results).reverse.find? (·.1.name == x)).map fun q => .var q.2) := by
  have hsubst : p.callSubst c = NameMap.empty.insertAll (p.callEntries c) := rfl
  rw [hsubst, NameMap.find?_insertAll_eq, callEntries, reverse_append, find?_append,
    ← map_reverse, ← map_reverse, find?_map, find?_map]
  simp only [argument?, Option.map_or, Option.map_map, NameMap.find?_empty, Option.or_none]
  rfl

theorem actualName_cases : p.argument? c x = some (.var (actualName (p.callSubst c) x)) ∨
    actualName (p.callSubst c) x ∈ c.results ∨ actualName (p.callSubst c) x = x := by
  unfold actualName
  rw [find?_callSubst]
  cases harg : p.argument? c x with
  | some e =>
    cases e with
    | var y => exact .inl rfl
    | _ => exact .inr (.inr rfl)
  | none =>
    cases hresult : (p.results.zip c.results).reverse.find? (·.1.name == x) with
    | none => exact .inr (.inr rfl)
    | some q =>
      have hq := mem_reverse.mp (mem_of_find?_eq_some hresult)
      exact .inr (.inl (of_mem_zip hq).2)

theorem mem_writes_expandCall {s : Scope} {labels : List String} {cmds : List Command}
    (h : p.expandCall labels c = .ok cmds) :
    (∃ d ∈ cmds, x ∈ s.writes d) ↔ x ∈ p.changed c := by
  have hlabel : ∀ ds : List Command,
      (∃ d ∈ labelFirst labels ds, x ∈ s.writes d) ↔ ∃ d ∈ ds, x ∈ s.writes d := by
    rintro (_ | ⟨d, ds⟩)
    · simp [labelFirst, Scope.writes]
    · simp [labelFirst, Scope.writes]
  have hassert : ∀ e : Expr, s.writes (.assert e) = ∅ := fun _ => rfl
  have hassume : ∀ e : Expr, s.writes (.assume e) = ∅ := fun _ => rfl
  have hhavoc : ∀ vars : List String, s.writes (.havoc vars) = .ofList vars := fun _ => rfl
  rw [(expandCall_eq_ok h).2, hlabel]
  simp [contractCommands, changed, hassert, hassume, hhavoc, or_and_right, exists_or]

end Procedure

/-- The commands for a call write nothing that is not known of the call exactly if the call
    discloses what it passes. If it does and is on a way from the header of a loop back to
    it, then what the commands write is forgotten at the header. -/
theorem expandCall_writes_iff (s : Scope) (p : Procedure) (c : Call) (labels : List String)
    (cmds : List Command) (hp : s.procedure? c.callee = some p)
    (hcmds : p.expandCall labels c = .ok cmds) :
    ((∀ d ∈ cmds, ∀ x ∈ s.writes d, x ∈ s.writes { labels, action := .call c }) ↔ p.Discloses c) ∧
    (p.Discloses c → ∀ body g, FlowGraph.ofBody body = .ok g →
      ∀ u h n, (u, h) ∈ g.cut.backEdges → g.Around h h n → g.Around h n u →
        body[n]? = some { labels, action := .call c } →
        ∀ d ∈ cmds, ∀ x ∈ s.writes d, x ∈ (g.analyseLoops body s).forgotten h) := by
  have hcall : ∀ y, y ∈ s.writes { labels, action := .call c } ↔
      y ∈ c.results ∨ y ∈ p.modifies.flatten := by
    simp [Scope.writes, hp]
  have hchanged : ∀ y, (∃ d ∈ cmds, y ∈ s.writes d) ↔
      ∃ x ∈ p.modifies.flatten, Procedure.actualName (p.callSubst c) x = y := by
    intro y
    rw [Procedure.mem_writes_expandCall hcmds, Procedure.changed, mem_map]
  have hknown : (∀ d ∈ cmds, ∀ x ∈ s.writes d, x ∈ s.writes { labels, action := .call c }) ↔
      p.Discloses c := by
    constructor
    · intro hwrites x hx y hy
      have hname : Procedure.actualName (p.callSubst c) x = y := by
        rw [Procedure.actualName, Procedure.find?_callSubst, hy]
        rfl
      obtain ⟨d, hd, hyd⟩ := (hchanged y).mpr ⟨x, hx, hname⟩
      exact (hcall y).mp (hwrites d hd y hyd)
    · intro hdiscloses d hd y hy
      obtain ⟨x, hx, rfl⟩ := (hchanged y).mp ⟨d, hd, hy⟩
      rw [hcall]
      rcases Procedure.actualName_cases (p := p) (c := c) (x := x) with harg | hresult | hsame
      · exact hdiscloses x hx _ harg
      · exact .inl hresult
      · exact .inr (hsame.symm ▸ hx)
  refine ⟨hknown, fun hdiscloses body g hg u h n hback hhn hnu hn d hd x hx => ?_⟩
  have he : ∀ e, g.entry = some e → e < g.size := fun _ => FlowGraph.entry_lt_size hg
  rcases FlowGraph.closes_cycle he hback with ⟨hlive, hedge, _⟩
  obtain ⟨e, hentry, hreach⟩ := hlive.trans (.single hedge)
  exact FlowGraph.writes_forgotten hentry (he e hentry) (mem_reverse.mp hback) hreach hhn hnu
    hn (hknown.mpr hdiscloses d hd x hx)

/-- A procedure that counts its argument up and says what it returns. -/
def countUp : Procedure :=
  { name := "countUp", args := [⟨"n", .int⟩], results := [⟨"r", .int⟩], modifies := [["n", "r"]] }

/-- The result goes where the argument came from. -/
def countUpCall : Call :=
  { callee := "countUp", results := ["k"], args := [.var "k"] }

theorem expandCall_writes_iff_countUp :
    countUp.expandCall [] countUpCall = .ok [.havoc ["k", "k"]] ∧
    ∀ x ∈ Scope.writes {} (.havoc ["k", "k"]),
      x ∈ Scope.writes { procedures := .ofList [("countUp", countUp)] }
        { action := .call countUpCall } := by
  have hcmds : countUp.expandCall [] countUpCall = .ok [.havoc ["k", "k"]] := rfl
  have hiff := (expandCall_writes_iff { procedures := .ofList [("countUp", countUp)] } countUp
    countUpCall [] _ rfl hcmds).1
  refine ⟨hcmds, hiff.mpr (fun x _ y hy => .inl ?_) _ mem_cons_self⟩
  -- The one argument is the variable that receives the result.
  have harg : countUp.argument? countUpCall x = some (.var "k") ∨
      countUp.argument? countUpCall x = none := by
    by_cases hx : x = "n"
    · exact .inl (hx ▸ rfl)
    · exact .inr (by simp [Procedure.argument?, countUp, countUpCall, Ne.symm hx])
  rcases harg with harg | harg <;> rw [hy] at harg <;> cases harg
  exact mem_cons_self

end Vouch
