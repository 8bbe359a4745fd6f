import Vouch.Proofs.Term.Edges
import Vouch.Proofs.Term.Unsharing

/-!
# What Removing Sharing Makes

Each node outside quantifiers is dealt with once. It is rebuilt from what stands for its
operands, which gives the node itself back if none of them changed.

## Main definitions

* `Term.Entry`: What was made for a node.
* `Term.Ledger`: The entries for some nodes.
* `Term.Numbered`: How the entries define variables.

## Theorems

* `Theory.records`: Rebuilding a term adds entries.
* `Theory.builds_unshareAll`: Removing sharing leaves a ledger.
-/

namespace Vouch

open List

namespace Term

/-- What was made for a node. -/
structure Entry where
  node : Term
  /-- The node with what stands for its operands. -/
  body : Term
  /-- The variable that stands for the node and its definition, if the node is
      shared. -/
  naming : Option (Term × Term)

namespace Entry

variable {e : Entry} {v d x : Term}

/-- What stands for the node. -/
def result (e : Entry) : Term :=
  (e.naming.map (·.1)).getD e.body

def definition? (e : Entry) : Option Term :=
  e.naming.map (·.2)

/-- All that was made for the node. -/
def parts (e : Entry) : List Term :=
  e.body :: (e.naming.map fun n => [n.1, n.2]).getD []

theorem result_of_none (h : e.naming = none) : e.result = e.body := by
  rw [result, h, Option.map_none, Option.getD_none]

theorem result_of_some (h : e.naming = some (v, d)) : e.result = v := by
  rw [result, h, Option.map_some, Option.getD_some]

theorem parts_of_some (h : e.naming = some (v, d)) : e.parts = [e.body, v, d] := by
  rw [parts, h, Option.map_some, Option.getD_some]

theorem definition?_eq_some : e.definition? = some d ↔ ∃ v, e.naming = some (v, d) := by
  unfold definition?
  rw [Option.map_eq_some_iff]
  constructor
  · rintro ⟨n, hn, rfl⟩
    exact ⟨n.1, hn⟩
  · rintro ⟨v, hv⟩
    exact ⟨(v, d), hv, rfl⟩

theorem body_mem_parts (e : Entry) : e.body ∈ e.parts :=
  mem_cons_self

theorem var_mem_parts (h : e.naming = some (v, d)) : v ∈ e.parts := by
  simp [parts_of_some h]

theorem definition_mem_parts (h : e.naming = some (v, d)) : d ∈ e.parts := by
  simp [parts_of_some h]

theorem result_mem_parts (e : Entry) : e.result ∈ e.parts := by
  cases h : e.naming with
  | none => rw [result_of_none h]; exact e.body_mem_parts
  | some n => rw [result_of_some h]; exact var_mem_parts h

theorem mem_parts : x ∈ e.parts ↔ x = e.body ∨ ∃ v d, e.naming = some (v, d) ∧ (x = v ∨ x = d) := by
  cases h : e.naming with
  | none => simp [parts, h]
  | some n =>
    obtain ⟨v, d⟩ := n
    rw [parts_of_some h]
    simp

end Entry

/-- The second term stands for the first. -/
def StandsFor (es : List Entry) (t r : Term) : Prop :=
  ∃ e ∈ es, e.node = t ∧ e.result = r

variable {es' : List Entry} {e : Entry} {memo : NodeMap Term}

theorem StandsFor.mono {es : List Entry} {t r : Term} (h : StandsFor es t r) (hes : es ⊆ es') :
    StandsFor es' t r := by
  rcases h with ⟨e, he, hnode, hresult⟩
  exact ⟨e, hes he, hnode, hresult⟩

/-- How the entry depends on those for the operands. -/
structure Entry.Follows (es : List Entry) (e : Entry) : Prop where
  head : e.body.head = e.node.head
  kept : e.node.op = .all → e.body = e.node
  operands : e.node.op ≠ .all → Forall₂ (StandsFor es) e.node.children e.body.children
  unchanged : e.body.children = e.node.children → e.body = e.node
  sides : ∀ v d, e.naming = some (v, d) → v.op = .var ∧ v.children = [] ∧
    (d.op = .iff ∨ d.op = .eq) ∧ d.children = [v, e.body]

theorem Entry.Follows.mono {es : List Entry} (h : e.Follows es) (hes : es ⊆ es') : e.Follows es' :=
  { h with operands := fun hop => (h.operands hop).imp fun _ _ hc => hc.mono hes }

/-- The entries define what the table has variables for, and nodes are written with
    these. -/
structure Numbered (W : Stock) (roots : List Term) (X : Stock) (es : List Entry)
    (A : List (Nat × Term)) : Prop where
  named : Named (Outside roots) W.names (es.filterMap Entry.definition?) A X.names
  written : ∀ e ∈ es, Written A e.node e.result

/-- The node is to be named. -/
def NamedBy (edges : NodeMap Nat) (t : Term) : Prop :=
  t.isShareable = true ∧ 2 ≤ edges.getD t.ident 0

/-- The entries for some of the nodes outside quantifiers. Before the first of them
    the stock was `W`. -/
structure Ledger (W : Stock) (roots : List Term) (edges : NodeMap Nat) (X : Stock)
    (es : List Entry) : Prop where
  outside : ∀ e ∈ es, Outside roots e.node
  nodes : (es.map (·.node)).Nodup
  follows : ∀ e ∈ es, e.Follows es
  named : ∀ e ∈ es, e.naming.isSome = true ↔ NamedBy edges e.node
  members : ∀ e ∈ es, ∀ x ∈ e.parts, x ∈ X.terms
  old : ∀ e ∈ es, ∀ x ∈ e.parts, x ∈ W.terms → x = e.node
  parts : (es.flatMap Entry.parts).Nodup
  numbered : ∃ A, Numbered W roots X es A

variable {W X Y : Stock} {roots : List Term} {edges : NodeMap Nat} {es : List Entry}

theorem ledger_nil (W : Stock) (roots : List Term) (edges : NodeMap Nat) :
    Ledger W roots edges W [] where
  outside := by simp
  nodes := by simp
  follows := by simp
  named := by simp
  members := by simp
  old := by simp
  parts := by simp
  numbered := ⟨[], .none le_rfl, by simp⟩

theorem Ledger.snoc (h : Ledger W roots edges X es) (hroots : ∀ t ∈ roots, t ∈ W.terms)
    (hWX : W ≤ X) (hXY : X ≤ Y) (hout : Outside roots e.node) (hnew : e.node ∉ es.map (·.node))
    (hfollows : e.Follows es) (hnamed : e.naming.isSome = true ↔ NamedBy edges e.node)
    (hmem : ∀ x ∈ e.parts, x ∈ Y.terms) (hparts : e.parts.Nodup)
    (hold : ∀ x ∈ e.parts, x ∈ X.terms → x = e.node)
    (hnumbered : ∃ A, Numbered W roots Y (es ++ [e]) A) : Ledger W roots edges Y (es ++ [e]) := by
  have hsub : es ⊆ es ++ [e] := subset_append_left es [e]
  have hall : ∀ {P : Entry → Prop}, (∀ e' ∈ es, P e') → P e → ∀ e' ∈ es ++ [e], P e' := by
    intro P hes he e' he'
    rcases mem_append.mp he' with he' | he'
    · exact hes e' he'
    · rwa [mem_singleton.mp he']
  refine ⟨hall h.outside hout, ?_, hall (fun e' he' => (h.follows e' he').mono hsub)
    (hfollows.mono hsub), hall h.named hnamed,
    hall (fun e' he' x hx => hXY.1 (h.members e' he' x hx)) hmem,
    hall h.old fun x hx hxW => hold x hx (hWX.1 hxW), ?_, hnumbered⟩
  · rw [map_append, map_singleton, nodup_append']
    exact ⟨h.nodes, nodup_singleton _, by simpa using hnew⟩
  · rw [flatMap_append, flatMap_singleton, nodup_append']
    refine ⟨h.parts, hparts, fun x hx hxe => hnew ?_⟩
    -- A node made before is an old one only if it is the node of its entry.
    rcases mem_flatMap.mp hx with ⟨e', he', hxe'⟩
    have hxnode := hold x hxe (h.members e' he' x hxe')
    have hxW : x ∈ W.terms := hxnode ▸ hout.mem hroots
    exact mem_map.mpr ⟨e', he', (h.old e' he' x hxe' hxW).symm.trans hxnode⟩

namespace Numbered

variable {A : List (Nat × Term)} {t b v d : Term} {k : Nat}

theorem below (h : Numbered W roots X es A) (hhead : b.head = t.head)
    (hkept : t.op = .all → b = t)
    (hop : t.op ≠ .all → Forall₂ (StandsFor es) t.children b.children) :
    WrittenBelow A t b := by
  refine ⟨hhead, hkept, fun hne => (hop hne).imp fun c r hr => ?_⟩
  rcases hr with ⟨e, he, rfl, rfl⟩
  exact h.written e he

theorem define (h : Numbered W roots X es A) (ht : Outside roots t)
    (hshare : t.isShareable = true) (hb : WrittenBelow A t b) (hk : X.names ≤ k)
    (hk' : k < Y.names) (hv : BareVar (sharedName k) t.sort v) (hd : Defines k b d) :
    Numbered W roots Y (es ++ [⟨t, b, some (v, d)⟩]) (A ++ [(k, t)]) := by
  refine ⟨?_, fun e he => ?_⟩
  · rw [filterMap_append]
    exact .define h.named hk hk' ht hshare hb hd
  · rcases mem_append.mp he with he | he
    · exact (h.written e he).mono (subset_append_left A _)
    · rw [mem_singleton.mp he]
      exact .name (by simp) hv

theorem skip (h : Numbered W roots X es A) (hXY : X ≤ Y) (hb : WrittenBelow A t b) :
    Numbered W roots Y (es ++ [⟨t, b, none⟩]) A := by
  refine ⟨?_, fun e he => ?_⟩
  · rw [filterMap_append, filterMap_cons_none rfl, filterMap_nil, append_nil]
    exact h.named.mono hXY.2
  · rcases mem_append.mp he with he | he
    · exact h.written e he
    · rw [mem_singleton.mp he]
      exact hb.written

end Numbered

/-- What is remembered is what stands for the nodes. -/
structure Recalls (W : Stock) (es : List Entry) (memo : NodeMap Term) : Prop where
  of_mem : ∀ e ∈ es, memo[e.node.ident]? = some e.result
  of_some : ∀ t ∈ W.terms, ∀ r, memo[t.ident]? = some r → StandsFor es t r

theorem Recalls.snoc (h : Recalls W es memo) (he : e.node ∈ W.terms)
    (hes : ∀ e' ∈ es, e'.node ∈ W.terms) (hnew : e.node ∉ es.map (·.node)) :
    Recalls W (es ++ [e]) (memo.insert e.node.ident e.result) := by
  refine ⟨fun e' he' => ?_, fun t ht r hr => ?_⟩
  · rw [Std.TreeMap.getElem?_insert]
    rcases mem_append.mp he' with he' | he'
    · have hne : compare e.node.ident e'.node.ident ≠ .eq := by
        intro hcmp
        have hnode := W.identified _ he _ (hes e' he') (Std.compare_eq_iff_eq.mp hcmp)
        exact hnew (mem_map.mpr ⟨e', he', hnode.symm⟩)
      rw [if_neg hne]
      exact h.of_mem e' he'
    · rw [mem_singleton.mp he', if_pos (Std.compare_eq_iff_eq.mpr rfl)]
  · rw [Std.TreeMap.getElem?_insert] at hr
    by_cases hcmp : compare e.node.ident t.ident = .eq
    · rw [if_pos hcmp, Option.some.injEq] at hr
      have hnode := W.identified _ he t ht (Std.compare_eq_iff_eq.mp hcmp)
      exact ⟨e, by simp, hnode, hr⟩
    · rw [if_neg hcmp] at hr
      exact (h.of_some t ht r hr).mono (subset_append_left es [e])

/-- Entries were added for nodes within the terms. -/
structure Adds (W : Stock) (roots : List Term) (edges : NodeMap Nat) (ts : List Term)
    (es : List Entry) (X : Stock) (memo : NodeMap Term) (ds : List Term) (es' : List Entry) :
    Prop where
  subset : es ⊆ es'
  within : ∀ e ∈ es', e ∈ es ∨ ∃ t ∈ ts, Within e.node t
  ledger : Ledger W roots edges X es'
  recalls : Recalls W es' memo
  definitions : ds = es'.filterMap Entry.definition?

theorem Adds.refl (h : Ledger W roots edges X es) (hmemo : Recalls W es memo) (ts : List Term) :
    Adds W roots edges ts es X memo (es.filterMap Entry.definition?) es :=
  ⟨List.Subset.refl es, fun _ he => .inl he, h, hmemo, rfl⟩

end Term

open Term

namespace Theory

variable {th : Theory} {W X : Stock}

variable {roots : List Term} {edges : NodeMap Nat} {es : List Entry} {t : Term}

theorem builds_entry (hth : th.Advances) (hroots : ∀ t ∈ roots, t ∈ W.terms) (hWX : W ≤ X)
    (h : Ledger W roots edges X es) (ht : Outside roots t) (hnew : t ∉ es.map (·.node))
    {cs : List Term} (hcs : ∀ c ∈ cs, c ∈ X.terms) (hall : t.op = .all → cs = t.children)
    (hop : t.op ≠ .all → Forall₂ (StandsFor es) t.children cs) :
    Builds X ((th.nameShared edges t cs).run (es.filterMap Entry.definition?)) fun Y p =>
      ∃ e : Entry, e.node = t ∧ e.result = p.1 ∧ Ledger W roots edges Y (es ++ [e]) ∧
        p.2 = (es ++ [e]).filterMap Entry.definition? := by
  rw [nameShared_run]
  refine leaves_bind (builds_withChildren_new (hWX.1 (ht.mem hroots)) hcs) fun Y b hXY hb => ?_
  obtain ⟨⟨hbY, hhead, hbcs⟩, hbold, hbsame⟩ := hb
  have hkept : t.op = .all → b = t := fun h => hbsame (hall h)
  have hoperands : t.op ≠ .all → Forall₂ (StandsFor es) t.children b.children :=
    fun h => hbcs.symm ▸ hop h
  have hunchanged : b.children = t.children → b = t := fun h => hbsame (hbcs.symm.trans h)
  obtain ⟨A, hnumbered⟩ := h.numbered
  have hbelow := hnumbered.below hhead hkept hoperands
  -- The branches differ in what is made beside the rebuilt node.
  split
  · next hshared =>
    have hnamed : NamedBy edges t := by simpa [NamedBy] using hshared
    refine leaves_bind (builds_sharedVar Y t.sort) fun Z v hYZ hv => ?_
    obtain ⟨hvY, hvZ, k, hYk, hkZ, hbare⟩ := hv
    have hsort : BareVar (sharedName k) b.sort v := hbelow.sort_eq.symm ▸ hbare
    refine leaves_bind (builds_define hth hvZ (hYZ.1 hbY) hsort) fun V d hZV hd => leaves_pure ?_
    obtain ⟨hdZ, hdV, hdefines, hdcs⟩ := hd
    refine ⟨⟨t, b, some (v, d)⟩, rfl, rfl, ?_, by simp [Entry.definition?]⟩
    have hXZ := hXY.trans hYZ
    refine h.snoc hroots hWX (hXZ.trans hZV) ht hnew
      ⟨hhead, hkept, hoperands, hunchanged, fun v' d' heq => ?_⟩ (iff_of_true rfl hnamed) ?_ ?_ ?_
      ⟨_, hnumbered.define ht hnamed.1 hbelow (hXY.2.trans hYk) (hkZ.trans_le hZV.2) hbare hdefines⟩
    · rw [Option.some.injEq, Prod.mk.injEq] at heq
      rw [← heq.1, ← heq.2]
      exact ⟨congrArg Head.op hbare.head, hbare.children, hdefines.op_eq, hdcs⟩
    · simp [Entry.parts, hZV.1 (hYZ.1 hbY), hZV.1 hvZ, hdV]
    · -- The variable is new when the rebuilt node is there, and the definition when both are.
      have hbv : b ≠ v := fun heq => hvY (heq ▸ hbY)
      have hbd : b ≠ d := fun heq => hdZ (heq ▸ hYZ.1 hbY)
      have hvd : v ≠ d := fun heq => hdZ (heq ▸ hvZ)
      simp [Entry.parts, hbv, hbd, hvd]
    · intro x hx hxX
      rcases Entry.mem_parts.mp hx with rfl | ⟨v', d', heq, hx⟩
      · exact hbold hxX
      · rw [Option.some.injEq, Prod.mk.injEq] at heq
        rcases hx with rfl | rfl
        · exact absurd (hXY.1 hxX) (heq.1 ▸ hvY)
        · exact absurd (hXZ.1 hxX) (heq.2 ▸ hdZ)
  · next hshared =>
    have hnamed : ¬ NamedBy edges t := by simpa [NamedBy] using hshared
    refine leaves_pure ⟨⟨t, b, none⟩, rfl, rfl, ?_, by simp [Entry.definition?]⟩
    exact h.snoc hroots hWX hXY ht hnew ⟨hhead, hkept, hoperands, hunchanged, by simp⟩
      (iff_of_false (by simp) hnamed) (by simp [Entry.parts, hbY]) (by simp [Entry.parts])
      (by simpa [Entry.parts] using hbold) ⟨A, hnumbered.skip hXY hbelow⟩

/-- Rebuilding the term adds entries, whatever was done before, and one of them is
    for the term. -/
def Records (th : Theory) (W : Stock) (roots : List Term) (edges : NodeMap Nat) (t : Term) : Prop :=
  ∀ {X : Stock} {es : List Entry} {memo : NodeMap Term}, W ≤ X → Outside roots t →
    Ledger W roots edges X es → Recalls W es memo →
    Builds X (((rebuildNode (·.op != .all) (th.nameShared edges) t).run memo).run
      (es.filterMap Entry.definition?)) fun Y p =>
      ∃ es', Adds W roots edges [t] es Y p.1.2 p.2 es' ∧ StandsFor es' t p.1.1

variable {ts : List Term}

theorem builds_entries (h : ∀ t ∈ ts, th.Records W roots edges t) :
    ∀ {X : Stock} {es : List Entry} {memo : NodeMap Term}, W ≤ X →
      (∀ t ∈ ts, Outside roots t) → Ledger W roots edges X es → Recalls W es memo →
      Builds X (((rebuildNodes (·.op != .all) (th.nameShared edges) ts).run memo).run
        (es.filterMap Entry.definition?)) fun Y p =>
        ∃ es', Adds W roots edges ts es Y p.1.2 p.2 es' ∧
          Forall₂ (StandsFor es') ts p.1.1 := by
  induction ts with
  | nil =>
    intro X es memo _ _ hes hmemo
    rw [rebuildNodes]
    exact leaves_pure ⟨es, .refl hes hmemo [], .nil⟩
  | cons t ts ih =>
    intro X es memo hWX hts hes hmemo
    rw [rebuildNodes_cons, StateT.run_bind]
    refine leaves_bind (h t (by simp) hWX (hts t (by simp)) hes hmemo) fun Y p hXY hp => ?_
    rcases hp with ⟨es₁, hadds, hstands⟩
    rw [StateT.run_bind, hadds.definitions]
    refine leaves_bind (ih (fun u hu => h u (by simp [hu])) (hWX.trans hXY)
      (fun u hu => hts u (by simp [hu])) hadds.ledger hadds.recalls)
      fun Z q _ hq => leaves_pure ?_
    rcases hq with ⟨es₂, hrest, hstands'⟩
    refine ⟨es₂, ⟨List.Subset.trans hadds.subset hrest.subset, fun e he => ?_, hrest.ledger,
      hrest.recalls, hrest.definitions⟩, .cons (hstands.mono hrest.subset) hstands'⟩
    rcases hrest.within e he with he | ⟨u, hu, hwithin⟩
    · refine (hadds.within e he).imp_right fun hnew => ?_
      simpa using Or.inl hnew
    · exact .inr ⟨u, by simp [hu], hwithin⟩

theorem builds_operands (hroots : ∀ t ∈ roots, t ∈ W.terms)
    (ih : ∀ c ∈ t.children, th.Records W roots edges c) {memo : NodeMap Term} (hWX : W ≤ X)
    (ht : Outside roots t) (hes : Ledger W roots edges X es) (hmemo : Recalls W es memo)
    (hnew : t ∉ es.map (·.node)) :
    Builds X ((if (t.op != .all) = true then
        (rebuildNodes (·.op != .all) (th.nameShared edges) t.children).run memo
        else pure (t.children, memo)).run (es.filterMap Entry.definition?)) fun Y p =>
      ∃ es', Adds W roots edges t.children es Y p.1.2 p.2 es' ∧ t ∉ es'.map (·.node) ∧
        (∀ c ∈ p.1.1, c ∈ Y.terms) ∧ (t.op = .all → p.1.1 = t.children) ∧
        (t.op ≠ .all → Forall₂ (StandsFor es') t.children p.1.1) := by
  by_cases hop : t.op = .all
  · rw [if_neg (by simp [hop])]
    exact leaves_pure ⟨es, .refl hes hmemo _, hnew,
      X.closed t (hWX.1 (ht.mem hroots)), fun _ => rfl, fun hne => absurd hop hne⟩
  · rw [if_pos (by simp [hop])]
    refine (builds_entries ih hWX (fun c hc => .operand ht hop hc) hes hmemo).mono
      fun Y p _ hp => ?_
    rcases hp with ⟨es', hadds, hstands⟩
    refine ⟨es', hadds, fun hmem => ?_, fun r hr => ?_, fun heq => absurd heq hop,
      fun _ => hstands⟩
    · rcases mem_map.mp hmem with ⟨e, he, hnode⟩
      rcases hadds.within e he with he | ⟨c, hc, hwithin⟩
      · exact hnew (mem_map.mpr ⟨e, he, hnode⟩)
      · exact hwithin.ne_of_mem_children hc hnode
    · rcases exists_of_forall₂_right hstands hr with ⟨_, _, e, he, _, rfl⟩
      exact hadds.ledger.members e he _ e.result_mem_parts

/-- By induction on the term: what is remembered has an entry, and otherwise the
    entries of the operands come first. -/
theorem records (hth : th.Advances) (hroots : ∀ t ∈ roots, t ∈ W.terms) (edges : NodeMap Nat)
    (t : Term) : th.Records W roots edges t := by
  induction t using Term.induction with
  | step t ih =>
    intro X es memo hWX ht hes hmemo
    have htW : t ∈ W.terms := ht.mem hroots
    cases hfound : memo[t.ident]? with
    | some r =>
      rw [rebuildNode_of_some hfound]
      exact leaves_pure ⟨es, .refl hes hmemo _, hmemo.of_some t htW r hfound⟩
    | none =>
      have hnew : t ∉ es.map (·.node) := by
        intro hmem
        rcases mem_map.mp hmem with ⟨e, he, rfl⟩
        simp [hmemo.of_mem e he] at hfound
      rw [rebuildNode_of_none hfound, StateT.run_bind]
      -- The operands add entries of their own, but none for the node itself.
      refine leaves_bind (builds_operands hroots ih hWX ht hes hmemo hnew) fun Y p hXY hp => ?_
      rcases hp with ⟨es₁, hadds, hnew, hcs, hall, hop⟩
      rw [StateT.run_bind, hadds.definitions]
      refine leaves_bind (builds_entry hth hroots (hWX.trans hXY) hadds.ledger ht hnew
        hcs hall hop) fun Z q _ hq => leaves_pure ?_
      rcases hq with ⟨e, hnode, hresult, hes₂, hds₂⟩
      have hmemo₂ := hadds.recalls.snoc (hnode.symm ▸ htW)
        (fun e' he' => (hadds.ledger.outside e' he').mem hroots) (hnode.symm ▸ hnew)
      rw [hnode, hresult] at hmemo₂
      refine ⟨es₁ ++ [e], ⟨fun e' he' => mem_append_left _ (hadds.subset he'),
        fun e' he' => ?_, hes₂, hmemo₂, hds₂⟩, e, by simp, hnode, hresult⟩
      rcases mem_append.mp he' with he' | he'
      · refine (hadds.within e' he').imp_right fun hnew => ?_
        rcases hnew with ⟨c, hc, hwithin⟩
        exact ⟨t, by simp, .operand hc hwithin⟩
      · refine .inr ⟨t, by simp, ?_⟩
        rw [mem_singleton.mp he', hnode]
        exact .refl

theorem builds_ledger (hth : th.Advances) (hts : ∀ t ∈ ts, t ∈ W.terms) :
    Builds W (th.unshareAll ts) fun X u => ∃ es, Ledger W ts (parentEdges ts) X es ∧
      u.definitions = es.filterMap Entry.definition? ∧
      Forall₂ (StandsFor es) ts u.terms := by
  have hrun : th.unshareAll ts =
      ((rebuildNodes (·.op != .all) (th.nameShared (parentEdges ts)) ts).run ∅).run [] >>=
        fun p => pure { terms := p.1.1, definitions := p.2
                        axioms := p.2 ++ (ts.foldl AxiomBag.collect {}).items } := rfl
  rw [hrun]
  refine leaves_bind (builds_entries (fun t _ => records hth hts _ t) W.refl
    (fun t ht => .root ht) (ledger_nil W ts _) ⟨by simp, by simp⟩) fun X p _ hp => leaves_pure ?_
  rcases hp with ⟨es, hadds, hstands⟩
  exact ⟨es, hadds.ledger, hadds.definitions, hstands⟩

/-- Definitions are numbered in order, each with variables of earlier ones. -/
theorem builds_unshareAll (hth : th.Advances) {P : Term → Prop}
    (hP : ∀ t, P t → t.op ≠ .all → ∀ c ∈ t.children, P c) (hts : ∀ t ∈ ts, t ∈ W.terms ∧ P t) :
    Builds W (th.unshareAll ts) fun X u => ∃ A, Naming P W.names X u.definitions A ∧
      (∀ r ∈ u.terms, r ∈ X.terms) ∧ Forall₂ (Written A) ts u.terms := by
  have hout : ∀ t, Outside ts t → P t := fun t ht => by
    induction ht with
    | root ht => exact (hts _ ht).2
    | operand _ hop hc ih => exact hP _ ih hop _ hc
  refine (builds_ledger hth fun t ht => (hts t ht).1).mono fun X u _ hu => ?_
  rcases hu with ⟨es, hes, hdefs, hstands⟩
  rcases hes.numbered with ⟨A, hnamed, hwritten⟩
  refine ⟨A, ⟨hdefs ▸ hnamed.imp hout, fun d hd => ?_⟩, fun r hr => ?_, hstands.imp fun t r h => ?_⟩
  · rw [hdefs] at hd
    rcases mem_filterMap.mp hd with ⟨e, he, hdef⟩
    rcases Entry.definition?_eq_some.mp hdef with ⟨v, hv⟩
    exact hes.members e he d (Entry.definition_mem_parts hv)
  · rcases exists_of_forall₂_right hstands hr with ⟨_, _, e, he, _, rfl⟩
    exact hes.members e he _ e.result_mem_parts
  · rcases h with ⟨e, he, rfl, rfl⟩
    exact hwritten e he

end Theory

end Vouch
