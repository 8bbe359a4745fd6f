import Vouch.Proofs.Term.Attached
import Vouch.Term.Unshare

/-!
# What Removing Sharing Does

Which nodes are shared depends on how edges are counted, but nothing here does: whatever
is named, the result is the given term with variables for some of its nodes, and the
definitions come in an order in which each mentions only variables defined before it.

## Main definitions

* `Term.Written`: A term with variables for nodes in a table.
* `Term.Named`: Definitions in order.

## Theorems

* `Term.Named.of_mem`: Which numbers the variables have.
* `Theory.builds_define`: What a definition says.
-/

namespace Vouch

open List

/-- The name of the variable for a shared node. -/
def sharedName (k : Nat) : String :=
  versionName shareName k

theorem sharedName_inj {j k : Nat} (h : sharedName j = sharedName k) : j = k :=
  (versionName_inj h).2

namespace Term

/-- The second term is the first with variables for nodes in the table. Below a
    quantifier nothing is replaced. -/
inductive Written (A : List (Nat × Term)) : Term → Term → Prop
  | name {k : Nat} {t v : Term} : (k, t) ∈ A → BareVar (sharedName k) t.sort v → Written A t v
  | node {t r : Term} : r.head = t.head → (t.op = .all → r = t) →
      (t.op ≠ .all → t.children.length = r.children.length) →
      (t.op ≠ .all → ∀ p ∈ t.children.zip r.children, Written A p.1 p.2) → Written A t r

variable {A B : List (Nat × Term)} {t r : Term}

theorem Written.mono (h : Written A t r) (hAB : A ⊆ B) : Written B t r := by
  induction h with
  | name hk hv => exact .name (hAB hk) hv
  | node hhead hall hlen _ ih => exact .node hhead hall hlen ih

/-- The second term is the first with variables below its head. -/
structure WrittenBelow (A : List (Nat × Term)) (t r : Term) : Prop where
  head : r.head = t.head
  kept : t.op = .all → r = t
  operands : t.op ≠ .all → Forall₂ (Written A) t.children r.children

theorem WrittenBelow.mono (h : WrittenBelow A t r) (hAB : A ⊆ B) : WrittenBelow B t r :=
  ⟨h.head, h.kept, fun hop => (h.operands hop).imp fun _ _ hw => hw.mono hAB⟩

theorem WrittenBelow.written (h : WrittenBelow A t r) : Written A t r := by
  refine .node h.head h.kept (fun hop => (h.operands hop).length_eq) fun hop p hp => ?_
  exact (forall₂_iff_zip.mp (h.operands hop)).2 hp

theorem Written.cases (h : Written A t r) :
    (∃ k, (k, t) ∈ A ∧ BareVar (sharedName k) t.sort r) ∨ WrittenBelow A t r := by
  cases h with
  | name hk hv => exact Or.inl ⟨_, hk, hv⟩
  | node hhead hall hlen hcs =>
    refine Or.inr ⟨hhead, hall, fun hop => forall₂_iff_zip.mpr ⟨hlen hop, ?_⟩⟩
    exact fun {c e} hce => hcs hop (c, e) hce

theorem WrittenBelow.op_eq (h : WrittenBelow A t r) : r.op = t.op :=
  congrArg Head.op h.head

theorem WrittenBelow.sort_eq (h : WrittenBelow A t r) : r.sort = t.sort :=
  congrArg Head.sort h.head

/-- The term says that the variable is the right side. -/
structure Defines (k : Nat) (r d : Term) : Prop where
  head : d.head = { op := if r.sort.isFormula then .iff else .eq, sort := .formula }
  sides : ∃ v, BareVar (sharedName k) r.sort v ∧ d.children = [v, r]

theorem Defines.op_eq {k : Nat} (h : Defines k r t) : t.op = .iff ∨ t.op = .eq := by
  rw [Term.op, h.head]
  split <;> simp

/-- Definitions in order, with the numbers of their variables and the nodes that
    these stand for. The numbers increase, and they are at least `N` and less than
    the last argument. Of the nodes that are named it is known that they are of a
    kind `P`. -/
inductive Named (P : Term → Prop) (N : Nat) : List Term → List (Nat × Term) → Nat → Prop
  | none {M : Nat} : N ≤ M → Named P N [] [] M
  | define {ds : List Term} {A : List (Nat × Term)} {M M' k : Nat} {t r d : Term} :
      Named P N ds A M → M ≤ k → k < M' → P t → t.isShareable = true → WrittenBelow A t r →
      Defines k r d → Named P N (ds ++ [d]) (A ++ [(k, t)]) M'

variable {P : Term → Prop} {N M M' : Nat} {ds : List Term}

theorem Named.mono (h : Named P N ds A M) (hM : M ≤ M') : Named P N ds A M' := by
  cases h with
  | none hN => exact .none (hN.trans hM)
  | define h hk hk' ht hshare hr hd => exact .define h hk (hk'.trans_le hM) ht hshare hr hd

theorem Named.imp {Q : Term → Prop} (h : Named P N ds A M) (hPQ : ∀ t, P t → Q t) :
    Named Q N ds A M := by
  induction h with
  | none hN => exact .none hN
  | define _ hk hk' ht hshare hr hd ih => exact .define ih hk hk' (hPQ _ ht) hshare hr hd

theorem Named.le (h : Named P N ds A M) : N ≤ M := by
  induction h with
  | none hN => exact hN
  | define _ hk hk' _ _ _ _ ih => omega

theorem Named.of_mem (h : Named P N ds A M) {k : Nat} {t : Term} (hk : (k, t) ∈ A) :
    N ≤ k ∧ k < M ∧ P t ∧ t.isShareable = true := by
  induction h with
  | none => simp at hk
  | define h hle hlt ht hshare _ _ ih =>
    rcases mem_append.mp hk with hk | hk
    · rcases ih hk with ⟨hN, hM, hold⟩
      exact ⟨hN, by omega, hold⟩
    · rw [mem_singleton, Prod.mk.injEq] at hk
      rw [hk.1, hk.2]
      exact ⟨h.le.trans hle, hlt, ht, hshare⟩

theorem Named.forall₂ (h : Named P N ds A M) :
    Forall₂ (fun d e => ∃ r, WrittenBelow A e.2 r ∧ Defines e.1 r d) ds A := by
  induction h with
  | none => exact .nil
  | @define ds A M M' k t r d h _ _ _ _ hr hd ih =>
    have hsub : A ⊆ A ++ [(k, t)] := subset_append_left A _
    refine rel_append (ih.imp fun d e he => ?_) (.cons ⟨r, hr.mono hsub, hd⟩ .nil)
    rcases he with ⟨q, hq, hd⟩
    exact ⟨q, hq.mono hsub, hd⟩

theorem Named.exists_defines (h : Named P N ds A M) {d : Term} (hd : d ∈ ds) :
    ∃ k t r, (k, t) ∈ A ∧ WrittenBelow A t r ∧ Defines k r d := by
  rcases exists_of_forall₂_left h.forall₂ hd with ⟨e, he, r, hr, hdefines⟩
  exact ⟨e.1, e.2, r, he, hr, hdefines⟩

/-- Definitions in order that belong to the stock. -/
structure Naming (P : Term → Prop) (N : Nat) (X : Stock) (ds : List Term)
    (A : List (Nat × Term)) : Prop where
  named : Named P N ds A X.names
  members : ∀ d ∈ ds, d ∈ X.terms

section Runs

variable {m : Type → Type} [Monad m] {descend : Term → Bool}
  {visit : Term → List Term → m Term} {memo : NodeMap Term}

theorem rebuildNodes_cons (t : Term) (ts : List Term) :
    (rebuildNodes descend visit (t :: ts)).run memo =
      (rebuildNode descend visit t).run memo >>= fun p =>
        (rebuildNodes descend visit ts).run p.2 >>= fun q => pure (p.1 :: q.1, q.2) := by
  rw [rebuildNodes]
  simp only [StateT.run_bind, StateT.run_pure]

variable [LawfulMonad m]

theorem rebuildNode_of_some (h : memo[t.ident]? = some r) :
    (rebuildNode descend visit t).run memo = pure (r, memo) := by
  obtain ⟨id, hd, cs, as⟩ := t
  have hid : memo[id]? = some r := h
  rw [rebuildNode]
  simp [hid]

theorem rebuildNode_of_none (h : memo[t.ident]? = none) :
    (rebuildNode descend visit t).run memo =
      (if descend t then (rebuildNodes descend visit t.children).run memo
        else pure (t.children, memo)) >>= fun p =>
      visit t p.1 >>= fun r => pure (r, p.2.insert t.ident r) := by
  obtain ⟨id, hd, cs, as⟩ := t
  have hid : memo[id]? = none := h
  rw [rebuildNode]
  by_cases hdescend : descend (.node id hd cs as) = true <;> simp [hid, hdescend, children, ident]

end Runs

end Term

open Term

theorem builds_sharedVar (W : Stock) (sort : TermSort) :
    Builds W (Term.freshVar shareName sort) fun X v => v ∉ W.terms ∧ v ∈ X.terms ∧
      ∃ k, W.names ≤ k ∧ k < X.names ∧ BareVar (sharedName k) sort v := by
  unfold Term.freshVar
  refine leaves_bind (Fresh.builds_name W shareName) fun X n hWX hn => ?_
  rcases hn with ⟨k, hWk, hkX, rfl⟩
  refine ((builds_make_new (by simp) _ _).and_gives (gives_bareVar _ sort)).mono
    fun Y v hXY hv => ?_
  exact ⟨fun hmem => hv.1.1 (hWX.1 hmem), hv.1.2.1, k, hWk, hkX.trans_le hXY.2, hv.2⟩

namespace Theory

variable {th : Theory} {W : Stock}

theorem builds_define (hth : th.Advances) {k : Nat} {v r : Term} (hv : v ∈ W.terms)
    (hr : r ∈ W.terms) (hbare : BareVar (sharedName k) r.sort v) : Builds W (th.define v r)
      fun X d => d ∉ W.terms ∧ d ∈ X.terms ∧ Defines k r d ∧ d.children = [v, r] := by
  have hsides : ∀ c ∈ [v, r], c ∈ W.terms := by simp [hv, hr]
  have hmake :
      th.define v r = th.make (if r.sort.isFormula then .iff else .eq) .formula [v, r] := by
    unfold define
    split <;> rfl
  rw [hmake]
  refine (builds_make_new hth hsides _ .formula).mono fun X d _ hd => ?_
  rcases hd with ⟨hnew, hmem, hhead, hcs⟩
  exact ⟨hnew, hmem, ⟨hhead, v, hbare, hcs⟩, hcs⟩

theorem nameShared_run (edges : NodeMap Nat) (t : Term) (cs ds : List Term) :
    (th.nameShared edges t cs).run ds = t.withChildren cs >>= fun r =>
      if t.isShareable && 2 ≤ edges.getD t.ident 0 then
        Term.freshVar shareName t.sort >>= fun v =>
          th.define v r >>= fun d => pure (v, ds ++ [d])
      else pure (r, ds) := by
  unfold nameShared
  simp only [StateT.run_bind, StateT.run_monadLift, bind_assoc, pure_bind]
  refine bind_congr fun r => ?_
  split <;> simp

end Theory

end Vouch
