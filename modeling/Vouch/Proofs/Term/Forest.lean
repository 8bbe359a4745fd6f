import Mathlib.Data.List.Pairwise
import Vouch.Proofs.Term.Extension

/-!
# Without Sharing, Terms Are Trees

The root at some position is what stands for the old root there, and the operands of a
rebuilt node are what stands for the operands of the old one, so these edges correspond
to edges of the given terms one to one.

## Main definitions

* `Term.Moves`: What an edge has become.
* `Term.Rewriting`: Terms and definitions were made of terms.

## Theorems

* `unsharing_yields_trees`: At most one edge leads to each node that is no leaf or tuple.
-/

namespace Vouch

open List

theorem exists_getElem?_of_forall₂ {α β : Type} {R : α → β → Prop} {as : List α} {bs : List β}
    (h : Forall₂ R as bs) : ∀ {i : Nat} {b : β}, bs[i]? = some b →
    ∃ a, as[i]? = some a ∧ R a b := by
  induction h with
  | nil =>
    intro i b hb
    simp at hb
  | cons hab _ ih =>
    intro i b hb
    cases i with
    | zero =>
      rw [getElem?_cons_zero, Option.some.injEq] at hb
      exact ⟨_, rfl, hb ▸ hab⟩
    | succ i => exact ih hb

theorem eq_of_forall₂ {α : Type} {R : α → α → Prop} {as bs : List α} (h : Forall₂ R as bs) :
    (∀ a ∈ as, ∀ b, R a b → b = a) → bs = as := by
  induction h with
  | nil => exact fun _ => rfl
  | cons hab _ ih =>
    intro hself
    rw [hself _ (by simp) _ hab, ih fun a ha => hself a (by simp [ha])]

namespace Term

/-- The second edge is what the first has become. -/
inductive Moves (es : List Entry) : Edge → Edge → Prop
  | root (i : Nat) : Moves es (.root i) (.root i)
  | operand {e : Entry} (i : Nat) : e ∈ es → Moves es (.operand e.node i) (.operand e.body i)

/-- The terms `us` and the definitions `ds` were made of the terms `ts`. -/
structure Rewriting (W X : Stock) (ts : List Term) (es : List Entry) (us ds : List Term) :
    Prop where
  roots : ∀ t ∈ ts, t ∈ W.terms
  ledger : Ledger W ts (parentEdges ts) X es
  stands : Forall₂ (StandsFor es) ts us
  definitions : ds = es.filterMap Entry.definition?

/-- One definition is about the variable, which is at two more places at least. -/
structure Introduced (us ds : List Term) (v : Term) : Prop where
  defined : ∃ (i : Nat) (d b : Term), ds[i]? = some d ∧ d.children = [v, b] ∧
    ∀ (j : Nat) (e : Term), ds[j]? = some e → e.defined? = v.name? → j = i
  used : ∃ δ ∈ edgesTo (us ++ ds) v, ∃ δ' ∈ edgesTo (us ++ ds) v, δ ≠ δ' ∧
    ∀ d ∈ ds, δ ≠ .operand d 0 ∧ δ' ≠ .operand d 0

theorem index_eq_of_defined? {ds : List Term} (h : (ds.map defined?).Nodup) {i j : Nat}
    {d e : Term} (hi : ds[i]? = some d) (hj : ds[j]? = some e) (hname : e.defined? = d.defined?) :
    j = i := by
  have hlt : j < (ds.map defined?).length := by
    rw [length_map]
    exact (List.getElem?_eq_some_iff.mp hj).1
  refine (getElem?_inj hlt h).mp ?_
  rw [getElem?_map, getElem?_map, hi, hj, Option.map_some, Option.map_some, hname]

namespace Rewriting

variable {W X : Stock} {ts us ds : List Term} {es : List Entry} {e e' : Entry} {t v d x : Term}
  {δ δ' ε ε' : Edge} (h : Rewriting W X ts es us ds)
include h

/-! ### Entries -/

theorem eq_of_node (he : e ∈ es) (he' : e' ∈ es) (hnode : e.node = e'.node) : e = e' :=
  inj_on_of_nodup_map h.ledger.nodes he he' hnode

theorem eq_of_mem_parts (he : e ∈ es) (he' : e' ∈ es)
    (hx : x ∈ e.parts) (hx' : x ∈ e'.parts) : e = e' := by
  by_contra hne
  have hpairs := (nodup_flatMap.mp h.ledger.parts).2
  have hsymm : Std.Symm (Function.onFun List.Disjoint Entry.parts) :=
    ⟨fun _ _ hdisjoint _ hx hx' => hdisjoint hx' hx⟩
  exact hpairs.forall he he' hne hx hx'

theorem ne_of_naming (he : e ∈ es)
    (hn : e.naming = some (v, d)) : e.body ≠ v ∧ e.body ≠ d ∧ v ≠ d := by
  have hnodup := (nodup_flatMap.mp h.ledger.parts).1 e he
  rw [Entry.parts_of_some hn] at hnodup
  simp at hnodup
  exact ⟨hnodup.1.1, hnodup.1.2, hnodup.2⟩

theorem eq_result (he : e ∈ es) (hx : StandsFor es e.node x) : x = e.result := by
  rcases hx with ⟨e', he', hnode, rfl⟩
  rw [h.eq_of_node he' he hnode]

theorem exists_entry (ht : Outside ts t) : ∃ e ∈ es, e.node = t := by
  induction ht with
  | root ht =>
    rcases exists_of_forall₂_left h.stands ht with ⟨_, _, e, he, hnode, _⟩
    exact ⟨e, he, hnode⟩
  | operand _ hop hc ih =>
    rcases ih with ⟨e, he, rfl⟩
    rcases exists_of_forall₂_left ((h.ledger.follows e he).operands hop) hc
      with ⟨_, _, e', he', hnode, _⟩
    exact ⟨e', he', hnode⟩

theorem op_body (he : e ∈ es) : e.body.op = e.node.op :=
  congrArg Head.op (h.ledger.follows e he).head

theorem mem_definitions : d ∈ ds ↔ ∃ e ∈ es, ∃ v, e.naming = some (v, d) := by
  rw [h.definitions, mem_filterMap]
  simp only [Entry.definition?_eq_some]

theorem nodup_definitions : ds.Nodup := by
  have hsub : ∀ es : List Entry,
      (es.filterMap Entry.definition?).Sublist (es.flatMap Entry.parts) := by
    intro es
    induction es with
    | nil => exact .slnil
    | cons e es ih =>
      rw [flatMap_cons]
      cases hn : e.naming with
      | none =>
        have hnone : e.definition? = none := by rw [Entry.definition?, hn]; rfl
        rw [filterMap_cons_none hnone]
        exact ih.trans (sublist_append_right _ _)
      | some n =>
        rw [filterMap_cons_some (Entry.definition?_eq_some.mpr ⟨n.1, hn⟩),
          Entry.parts_of_some (v := n.1) (d := n.2) hn]
        exact ((ih.cons_cons n.2).cons _).cons _
  rw [h.definitions]
  exact (hsub es).nodup h.ledger.parts

/-! ### Nodes of the result -/

theorem exists_mem_parts (hx : Outside (us ++ ds) x) : ∃ e ∈ es, x ∈ e.parts := by
  induction hx with
  | root hx =>
    rcases mem_append.mp hx with hx | hx
    · rcases exists_of_forall₂_right h.stands hx with ⟨_, _, e, he, _, rfl⟩
      exact ⟨e, he, e.result_mem_parts⟩
    · rcases h.mem_definitions.mp hx with ⟨e, he, v, hn⟩
      exact ⟨e, he, Entry.definition_mem_parts hn⟩
  | operand _ hop hc ih =>
    rcases ih with ⟨e, he, hp⟩
    have hfollows := h.ledger.follows e he
    rcases Entry.mem_parts.mp hp with rfl | ⟨v, d, hn, hp⟩
    · rcases exists_of_forall₂_right (hfollows.operands (h.op_body he ▸ hop)) hc
        with ⟨_, _, e', he', _, rfl⟩
      exact ⟨e', he', e'.result_mem_parts⟩
    · rcases hfollows.sides v d hn with ⟨_, hvcs, _, hdcs⟩
      rcases hp with rfl | rfl
      · simp [hvcs] at hc
      · rw [hdcs] at hc
        rcases mem_cons.mp hc with rfl | hc
        · exact ⟨e, he, Entry.var_mem_parts hn⟩
        · rw [mem_singleton.mp hc]
          exact ⟨e, he, e.body_mem_parts⟩

theorem op_definition (he : e ∈ es) (hn : e.naming = some (v, d)) : d.op ≠ .all ∧ d.op ≠ .var := by
  rcases ((h.ledger.follows e he).sides v d hn).2.2.1 with hop | hop <;> simp [hop]

theorem outside_body_of_result (he : e ∈ es)
    (hresult : Outside (us ++ ds) e.result) : Outside (us ++ ds) e.body := by
  cases hn : e.naming with
  | none => rwa [Entry.result_of_none hn] at hresult
  | some n =>
    have hd : n.2 ∈ ds := h.mem_definitions.mpr ⟨e, he, n.1, hn⟩
    have hsides := ((h.ledger.follows e he).sides n.1 n.2 hn).2.2.2
    exact .operand (.root (by simp [hd])) (h.op_definition he hn).1 (by simp [hsides])

theorem outside_body (he : e ∈ es) : Outside (us ++ ds) e.body := by
  have hall : ∀ t, Outside ts t → ∀ e ∈ es, e.node = t → Outside (us ++ ds) e.body := by
    intro t ht
    induction ht with
    | root ht =>
      rintro e he rfl
      rcases exists_of_forall₂_left h.stands ht with ⟨r, hr, hstands⟩
      rw [h.eq_result he hstands] at hr
      exact h.outside_body_of_result he (.root (by simp [hr]))
    | operand hp hop hc ih =>
      rintro e he rfl
      rcases h.exists_entry hp with ⟨e', he', rfl⟩
      rcases exists_of_forall₂_left ((h.ledger.follows e' he').operands hop) hc
        with ⟨r, hr, hstands⟩
      rw [h.eq_result he hstands] at hr
      exact h.outside_body_of_result he (.operand (ih e' he' rfl) ((h.op_body he').symm ▸ hop) hr)
  exact hall e.node (h.ledger.outside e he) e he rfl

/-! ### Edges of the result -/

theorem edge_down (he : e ∈ es) (hε : ε ∈ edgesTo ts e.node) :
    ∃ δ ∈ edgesTo (us ++ ds) e.result, Moves es ε δ := by
  cases ε with
  | root i =>
    rcases exists_getElem?_of_forall₂ h.stands.flip hε.2 with ⟨r, hr, hstands⟩
    rw [h.eq_result he hstands] at hr
    have hlt := (List.getElem?_eq_some_iff.mp hr).1
    refine ⟨.root i, ⟨trivial, ?_⟩, .root i⟩
    exact (getElem?_append_left hlt).trans hr
  | operand p i =>
    obtain ⟨⟨hp, hop⟩, htarget⟩ := hε
    rcases h.exists_entry hp with ⟨e', he', rfl⟩
    rcases exists_getElem?_of_forall₂ ((h.ledger.follows e' he').operands hop).flip htarget
      with ⟨r, hr, hstands⟩
    rw [h.eq_result he hstands] at hr
    exact ⟨.operand e'.body i, ⟨⟨h.outside_body he', (h.op_body he').symm ▸ hop⟩, hr⟩,
      .operand i he'⟩

/-- An edge of the result was an edge of the terms before, or it is a side of a
    definition, or it leads to a definition. -/
theorem edge_up (he : e ∈ es) (hx : x ∈ e.parts) (hδ : δ ∈ edgesTo (us ++ ds) x) :
    (x = e.result ∧ ∃ ε ∈ edgesTo ts e.node, Moves es ε δ) ∨
    ∃ v d, e.naming = some (v, d) ∧ ((x = v ∧ δ = .operand d 0) ∨
      (x = e.body ∧ δ = .operand d 1) ∨
      (x = d ∧ ∃ j, ds[j]? = some d ∧ δ = .root (us.length + j))) := by
  cases δ with
  | root i =>
    have htarget : (us ++ ds)[i]? = some x := hδ.2
    by_cases hlt : i < us.length
    · rw [getElem?_append_left hlt] at htarget
      rcases exists_getElem?_of_forall₂ h.stands htarget with ⟨t, ht, e', he', rfl, rfl⟩
      rw [h.eq_of_mem_parts he he' hx e'.result_mem_parts]
      exact .inl ⟨rfl, .root i, ⟨trivial, ht⟩, .root i⟩
    · rw [getElem?_append_right (by omega)] at htarget
      rcases h.mem_definitions.mp (mem_of_getElem? htarget) with ⟨e', he', v, hn⟩
      rw [h.eq_of_mem_parts he he' hx (Entry.definition_mem_parts hn)]
      refine .inr ⟨v, x, hn, .inr (.inr ⟨rfl, i - us.length, htarget, ?_⟩)⟩
      rw [Nat.add_sub_cancel' (by omega)]
  | operand p i =>
    obtain ⟨⟨hp, hop⟩, htarget⟩ := hδ
    have htarget : p.children[i]? = some x := htarget
    rcases h.exists_mem_parts hp with ⟨e', he', hp⟩
    have hfollows := h.ledger.follows e' he'
    rcases Entry.mem_parts.mp hp with rfl | ⟨v, d, hn, hp⟩
    · have hop' : e'.node.op ≠ .all := h.op_body he' ▸ hop
      rcases exists_getElem?_of_forall₂ (hfollows.operands hop') htarget
        with ⟨t, ht, e'', he'', rfl, rfl⟩
      rw [h.eq_of_mem_parts he he'' hx e''.result_mem_parts]
      exact .inl ⟨rfl, .operand e'.node i, ⟨⟨h.ledger.outside e' he', hop'⟩, ht⟩, .operand i he'⟩
    · rcases hfollows.sides v d hn with ⟨_, hvcs, _, hdcs⟩
      rcases hp with rfl | rfl
      · simp [hvcs] at htarget
      · rw [hdcs] at htarget
        -- A definition has two sides.
        cases i with
        | zero =>
          have hxv : v = x := by simpa using htarget
          rw [h.eq_of_mem_parts he he' hx (hxv ▸ Entry.var_mem_parts hn)]
          exact .inr ⟨v, p, hn, .inl ⟨hxv.symm, rfl⟩⟩
        | succ i =>
          cases i with
          | zero =>
            have hxb : e'.body = x := by simpa using htarget
            rw [h.eq_of_mem_parts he he' hx (hxb ▸ e'.body_mem_parts)]
            exact .inr ⟨v, p, hn, .inr (.inl ⟨hxb.symm, rfl⟩)⟩
          | succ i => simp at htarget

theorem eq_of_moves (hδ : Moves es ε δ) (hδ' : Moves es ε δ') : δ = δ' := by
  cases hδ with
  | root i =>
    cases hδ' with
    | root => rfl
  | @operand e i he =>
    generalize hε : Edge.operand e.node i = ε at hδ'
    cases hδ' with
    | root => simp at hε
    | @operand e' j he' =>
      rw [Edge.operand.injEq] at hε
      rw [h.eq_of_node he he' hε.1, hε.2]

theorem eq_of_moves_to (hε : Moves es ε δ) (hε' : Moves es ε' δ) : ε = ε' := by
  cases hε with
  | root i =>
    cases hε' with
    | root => rfl
  | @operand e i he =>
    generalize hδ : Edge.operand e.body i = δ at hε'
    cases hε' with
    | root => simp at hδ
    | @operand e' j he' =>
      rw [Edge.operand.injEq] at hδ
      have hbody : e.body ∈ e'.parts := hδ.1 ▸ e'.body_mem_parts
      rw [h.eq_of_mem_parts he he' e.body_mem_parts hbody, hδ.2]

theorem naming_iff (he : e ∈ es) : e.naming.isSome = true ↔
      e.node.isShareable = true ∧ ¬ (edgesTo ts e.node).Subsingleton := by
  have hnode : e.node ∈ W.terms := (h.ledger.outside e he).mem h.roots
  rw [h.ledger.named e he, NamedBy, two_le_parentEdges h.roots hnode]

theorem edge_up_of_none (he : e ∈ es) (hn : e.naming = none)
    (hδ : δ ∈ edgesTo (us ++ ds) e.body) : ∃ ε ∈ edgesTo ts e.node, Moves es ε δ := by
  rcases h.edge_up he e.body_mem_parts hδ with ⟨_, hε⟩ | ⟨v, d, hsome, _⟩
  · exact hε
  · simp [hn] at hsome

theorem edge_up_of_some (he : e ∈ es)
    (hn : e.naming = some (v, d)) (hδ : δ ∈ edgesTo (us ++ ds) e.body) : δ = .operand d 1 := by
  rcases h.ne_of_naming he hn with ⟨hbv, hbd, _⟩
  rcases h.edge_up he e.body_mem_parts hδ with ⟨hbody, _⟩ | ⟨v', d', hn', hcases⟩
  · rw [Entry.result_of_some hn] at hbody
    exact absurd hbody hbv
  · rw [hn, Option.some.injEq, Prod.mk.injEq] at hn'
    rcases hcases with ⟨hbody, _⟩ | ⟨_, hδ⟩ | ⟨hbody, _⟩
    · exact absurd (hbody.trans hn'.1.symm) hbv
    · rw [hδ, hn'.2]
    · exact absurd (hbody.trans hn'.2.symm) hbd

theorem edge_up_of_definition (he : e ∈ es)
    (hn : e.naming = some (v, d)) (hδ : δ ∈ edgesTo (us ++ ds) d) :
    ∃ j, ds[j]? = some d ∧ δ = .root (us.length + j) := by
  rcases h.ne_of_naming he hn with ⟨_, hbd, hvd⟩
  rcases h.edge_up he (Entry.definition_mem_parts hn) hδ with ⟨hd, _⟩ | ⟨v', d', hn', hcases⟩
  · rw [Entry.result_of_some hn] at hd
    exact absurd hd.symm hvd
  · rw [hn, Option.some.injEq, Prod.mk.injEq] at hn'
    rcases hcases with ⟨hd, _⟩ | ⟨hd, _⟩ | ⟨hd, hroot⟩
    · exact absurd (hn'.1.trans hd.symm) hvd
    · exact absurd hd.symm hbd
    · rwa [← hd] at hroot

theorem subsingleton_edgesTo (ht : Outside (us ++ ds) t)
    (hshare : t.isShareable = true) : (edgesTo (us ++ ds) t).Subsingleton := by
  rcases h.exists_mem_parts ht with ⟨e, he, htparts⟩
  have hfollows := h.ledger.follows e he
  intro δ hδ δ' hδ'
  rcases Entry.mem_parts.mp htparts with rfl | ⟨v, d, hn, rfl | rfl⟩
  · cases hn : e.naming with
    | none =>
      -- The node has not been named, so there is one edge to it at most.
      have hsub : (edgesTo ts e.node).Subsingleton := by
        by_contra hnot
        have hnode : e.node.isShareable = true :=
          (Reading.isShareable_of_head hfollows.head).symm.trans hshare
        have hsome := (h.naming_iff he).mpr ⟨hnode, hnot⟩
        simp [hn] at hsome
      rcases h.edge_up_of_none he hn hδ with ⟨ε, hε, hmoves⟩
      rcases h.edge_up_of_none he hn hδ' with ⟨ε', hε', hmoves'⟩
      rw [hsub hε hε'] at hmoves
      exact h.eq_of_moves hmoves hmoves'
    | some n => rw [h.edge_up_of_some he hn hδ, h.edge_up_of_some he hn hδ']
  · simp [isShareable, (hfollows.sides t d hn).1, Op.isLeaf] at hshare
  · rcases h.edge_up_of_definition he hn hδ with ⟨j, hj, rfl⟩
    rcases h.edge_up_of_definition he hn hδ' with ⟨j', hj', rfl⟩
    have hlt := (List.getElem?_eq_some_iff.mp hj).1
    rw [(getElem?_inj hlt h.nodup_definitions).mp (hj.trans hj'.symm)]

/-! ### Variables -/

theorem exists_naming
    (hleaf : ∀ t, Outside ts t → t.op = .var → t.children = []) (hv : Outside (us ++ ds) v)
    (hop : v.op = .var) (hnew : ¬ Outside ts v) : ∃ e ∈ es, ∃ d, e.naming = some (v, d) := by
  rcases h.exists_mem_parts hv with ⟨e, he, hparts⟩
  have hfollows := h.ledger.follows e he
  have hout := h.ledger.outside e he
  rcases Entry.mem_parts.mp hparts with rfl | ⟨v', d, hn, rfl | rfl⟩
  · -- A variable that is rebuilt has no operands that could have changed.
    have hop' : e.node.op = .var := (h.op_body he).symm.trans hop
    have hnil := hleaf e.node hout hop'
    have hoperands := hfollows.operands (by simp [hop'])
    rw [hnil] at hoperands
    have hbody : e.body.children = e.node.children :=
      (forall₂_nil_left_iff.mp hoperands).trans hnil.symm
    exact absurd (hfollows.unchanged hbody ▸ hout) hnew
  · exact ⟨e, he, d, hn⟩
  · exact absurd hop (h.op_definition he hn).2

theorem exists_edges (he : e ∈ es)
    (hn : e.naming = some (v, d)) : ∃ δ ∈ edgesTo (us ++ ds) v, ∃ δ' ∈ edgesTo (us ++ ds) v,
      δ ≠ δ' ∧ ∀ d' ∈ ds, δ ≠ .operand d' 0 ∧ δ' ≠ .operand d' 0 := by
  have hsome : e.naming.isSome = true := by rw [hn]; rfl
  -- An edge that was there before starts at a rebuilt node, not at a definition.
  have hother : ∀ {ε δ : Edge}, Moves es ε δ → ∀ d' ∈ ds, δ ≠ .operand d' 0 := by
    intro ε δ hmoves d' hd' heq
    rcases h.mem_definitions.mp hd' with ⟨e', he', v', hn'⟩
    cases hmoves with
    | root => simp at heq
    | @operand e'' i he'' =>
      rw [Edge.operand.injEq] at heq
      have hparts : d' ∈ e''.parts := heq.1 ▸ e''.body_mem_parts
      have hsame := h.eq_of_mem_parts he'' he' hparts (Entry.definition_mem_parts hn')
      rw [hsame] at heq
      exact (h.ne_of_naming he' hn').2.1 heq.1
  have hshared := ((h.naming_iff he).mp hsome).2
  rcases Set.not_subsingleton_iff.mp hshared with ⟨ε, hε, ε', hε', hne⟩
  rcases h.edge_down he hε with ⟨δ, hδ, hmoves⟩
  rcases h.edge_down he hε' with ⟨δ', hδ', hmoves'⟩
  rw [Entry.result_of_some hn] at hδ hδ'
  refine ⟨δ, hδ, δ', hδ', fun heq => hne ?_, fun d' hd' => ⟨hother hmoves d' hd',
    hother hmoves' d' hd'⟩⟩
  rw [← heq] at hmoves'
  exact h.eq_of_moves_to hmoves hmoves'

theorem exists_sides (hd : d ∈ ds) : ∃ v b, d.children = [v, b] ∧ v.op = .var ∧ ¬ Outside ts v := by
  rcases h.mem_definitions.mp hd with ⟨e, he, v, hn⟩
  rcases (h.ledger.follows e he).sides v d hn with ⟨hop, _, _, hsides⟩
  refine ⟨v, e.body, hsides, hop, fun hout => ?_⟩
  have hnode := h.ledger.old e he v (Entry.var_mem_parts hn) (hout.mem h.roots)
  have hsome : e.naming.isSome = true := by rw [hn]; rfl
  have hshare := ((h.naming_iff he).mp hsome).1
  simp [isShareable, ← hnode, hop, Op.isLeaf] at hshare

/-! ### Nothing to do -/

theorem eq_of_not_shared
    (hno : ∀ t, Outside ts t → t.isShareable = true → (edgesTo ts t).Subsingleton) :
    us = ts ∧ ds = [] := by
  have hnone : ∀ e ∈ es, e.naming = none := by
    intro e he
    by_contra hne
    have hsome := (h.naming_iff he).mp (Option.isSome_iff_ne_none.mpr hne)
    exact hsome.2 (hno e.node (h.ledger.outside e he) hsome.1)
  have hself : ∀ t r, StandsFor es t r → r = t := by
    intro t
    induction t using Term.induction with
    | step t ih =>
      rintro r ⟨e, he, rfl, rfl⟩
      rw [Entry.result_of_none (hnone e he)]
      have hfollows := h.ledger.follows e he
      by_cases hop : e.node.op = .all
      · exact hfollows.kept hop
      · exact hfollows.unchanged (eq_of_forall₂ (hfollows.operands hop) ih)
  refine ⟨eq_of_forall₂ h.stands fun t _ => hself t, eq_nil_iff_forall_not_mem.mpr ?_⟩
  intro d hd
  rcases h.mem_definitions.mp hd with ⟨e, he, v, hn⟩
  simp [hnone e he] at hn

end Rewriting

end Term

open Term

/-- Removing sharing leaves trees. In the terms and definitions together, at most
    one edge leads to each node that is neither a leaf nor a tuple, quantifiers not
    being entered. A variable that was put in is on the left side of one definition
    and at two other places at least, and all definitions are about such variables.
    Terms without shared nodes are returned as they are. -/
theorem unsharing_yields_trees {th : Theory} (hth : th.Advances) {W : Stock} {s : Supply}
    (hs : W.Fits s) {ts : List Term} (hts : ∀ t ∈ ts, t ∈ W.terms)
    (hleaf : ∀ t, Outside ts t → t.op = .var → t.children = []) :
    let u := ((th.unshareAll ts).run s).1
    let out := u.terms ++ u.definitions
    (∀ t, Outside out t → t.isShareable = true → (edgesTo out t).Subsingleton) ∧
    (∀ v, Outside out v → v.op = .var → ¬ Outside ts v → Introduced u.terms u.definitions v) ∧
    (∀ d ∈ u.definitions, ∃ v b, d.children = [v, b] ∧ v.op = .var ∧ ¬ Outside ts v) ∧
    ((∀ t, Outside ts t → t.isShareable = true → (edgesTo ts t).Subsingleton) →
      u.terms = ts ∧ u.definitions = []) := by
  rcases Theory.builds_ledger hth hts s hs with ⟨X, _, _, es, hledger, hdefs, hstands⟩
  have h : Rewriting W X ts es ((th.unshareAll ts).run s).1.terms
      ((th.unshareAll ts).run s).1.definitions := ⟨hts, hledger, hstands, hdefs⟩
  -- The names of the variables are numbered, so each is defined once.
  rcases Theory.builds_unshareAll (P := fun _ => True) hth (fun _ _ _ _ _ => trivial)
    (fun t ht => ⟨hts t ht, trivial⟩) s hs with ⟨_, _, _, table, hnaming, _⟩
  have hnames := hnaming.named.nodup_defined?
  refine ⟨fun t ht => h.subsingleton_edgesTo ht, fun v hv hop hnew => ?_,
    fun d hd => h.exists_sides hd, h.eq_of_not_shared⟩
  rcases h.exists_naming hleaf hv hop hnew with ⟨e, he, d, hn⟩
  refine ⟨?_, h.exists_edges he hn⟩
  rcases mem_iff_getElem?.mp (h.mem_definitions.mpr ⟨e, he, v, hn⟩) with ⟨i, hi⟩
  have hsides := ((h.ledger.follows e he).sides v d hn).2.2.2
  have hdefined : d.defined? = v.name? := by rw [defined?, hsides]; rfl
  exact ⟨i, d, e.body, hi, hsides, fun j d' hj hname =>
    index_eq_of_defined? hnames hi hj (hname.trans hdefined.symm)⟩

/-- For roots that are within each other, one of them also below a quantifier. -/
theorem unsharing_yields_trees_nested :
    let u := ((Theory.standard.unshareAll nestedNodes).run { nextNode := 6, nextName := 1 }).1
    let out := u.terms ++ u.definitions
    u.definitions.length = 4 ∧
    (∀ t, Outside nestedNodes t → t.op = .var → t.children = []) ∧
    (∀ t, Outside out t → t.isShareable = true → (edgesTo out t).Subsingleton) ∧
    (∀ v, Outside out v → v.op = .var → ¬ Outside nestedNodes v →
      Introduced u.terms u.definitions v) ∧
    ∀ d ∈ u.definitions, ∃ v b, d.children = [v, b] ∧ v.op = .var ∧ ¬ Outside nestedNodes v := by
  let W := Stock.ofList nestedNodes 1 (by simp [nestedNodes, Term.children]) (by decide)
  have hfits : W.Fits { nextNode := 6, nextName := 1 } :=
    Stock.fits_ofList (by decide) rfl
  have hleaf : ∀ t, Outside nestedNodes t → t.op = .var → t.children = [] := by
    intro t ht hop
    have hnodes : t ∈ nestedNodes := Outside.mem (W := W) (fun _ h => h) ht
    have hall : ∀ t ∈ nestedNodes, t.op = .var → t.children.isEmpty = true := by decide
    exact List.isEmpty_iff.mp (hall t hnodes hop)
  have h := unsharing_yields_trees Theory.advances_standard hfits (fun t ht => ht) hleaf
  exact ⟨by decide +kernel, hleaf, h.1, h.2.1, h.2.2.1⟩

end Vouch
