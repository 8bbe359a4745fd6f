import Vouch.Proofs.Term.Definitions

/-!
# The Layers of a Term

Connectives make formulas of formulas, atoms make formulas of values, and all other
operators make values of values. A list of map indices is neither, and it stands nowhere
but in a map operation.

## Main definitions

* `Layer`: Formulas, values and lists of indices.
* `Term.Stratified`: All nodes of a term are layered.
* `Stock.Layered`: All members of a stock are, and axioms are formulas.

## Theorems

* `Stock.Layered.builds_unshareAll`: Removing sharing keeps terms layered.
-/

namespace Vouch

open List

/-- The layers of the prover's logic. -/
inductive Layer where
  | formula
  | value
  /-- A list of map indices. -/
  | indices
deriving DecidableEq

/-- The layer of the variables and literals of a sort. -/
def TermSort.layer (s : TermSort) : Layer :=
  if s.isFormula then .formula else .value

namespace Op

/-- The layer of what the operator makes. Variables and literals are of the layer
    of their sort. -/
def layer? : Op → Option Layer
  | and | or | not | implies | iff | all | eq | neq | distinct | lt | le => some .formula
  | tuple => some .indices
  | var | lit => none
  | _ => some .value

/-- The layer of the operands, if all of them are of the same. -/
def operands? : Op → Option Layer
  | and | or | not | implies | iff => some .formula
  | all | mapSelect | mapUpdate | var | lit => none
  | _ => some .value

/-- Whether the operator takes operands of these layers. -/
def takes (op : Op) (ls : List Layer) : Bool :=
  match op.operands? with
  | some l => ls.all (· == l)
  | none =>
    match op with
    | all => ls.dropLast.all (· == .value) && ls.getLast? == some .formula
    | mapSelect => ls == [.value, .indices]
    | mapUpdate => ls == [.value, .indices, .value]
    | _ => ls.isEmpty

theorem takes_of_operands? {op : Op} {l : Layer} (h : op.operands? = some l) {ls : List Layer} :
    op.takes ls = true ↔ ∀ k ∈ ls, k = l := by
  simp [takes, h]

end Op

/-- The layer of the nodes with the head. -/
def Head.layer (h : Head) : Layer :=
  if h.op = .tuple then .indices else h.sort.layer

namespace Term

/-- The layer of the term. -/
def layer (t : Term) : Layer :=
  t.head.layer

/-- The term is of the layer that its operator makes, and its operands are of the
    layers that its operator takes. What a quantifier binds are variables. -/
structure Layered (t : Term) : Prop where
  made : ∀ l, t.op.layer? = some l → t.layer = l
  operands : t.op.takes (t.children.map layer) = true
  binders : t.op = .all → ∀ v ∈ t.children.dropLast, ∃ n, v.name? = some n

/-- All nodes of the term are layered. -/
inductive Stratified : Term → Prop
  | intro {t : Term} : Layered t → (∀ c ∈ t.children, Stratified c) → Stratified t

variable {t r v b : Term}

theorem Stratified.layered (h : Stratified t) : Layered t := by
  cases h with
  | intro hlayered _ => exact hlayered

theorem Stratified.operand (h : Stratified t) {c : Term} (hc : c ∈ t.children) : Stratified c := by
  cases h with
  | intro _ hcs => exact hcs c hc

theorem layer_eq_of_head (h : r.head = t.head) : r.layer = t.layer :=
  congrArg Head.layer h

theorem layer_of_op_ne (h : t.op ≠ .tuple) : t.layer = t.sort.layer :=
  if_neg h

theorem layer_of_name? {n : String} (h : t.name? = some n) : t.layer = t.sort.layer :=
  layer_of_op_ne (by simp [op_of_name? h])

theorem layer_of_isShareable (h : t.isShareable = true) : t.layer = t.sort.layer := by
  refine layer_of_op_ne fun hop => ?_
  simp [isShareable, hop] at h

namespace Layered

theorem rebuild (h : Layered t) (hhead : r.head = t.head)
    (hlayers : r.children.map layer = t.children.map layer)
    (hvars : t.op = .all → ∀ v ∈ r.children.dropLast, ∃ n, v.name? = some n) : Layered r := by
  have hop : r.op = t.op := congrArg Head.op hhead
  refine ⟨fun l hl => ?_, ?_, fun hall => hvars (hop ▸ hall)⟩
  · rw [layer_eq_of_head hhead]
    exact h.made l (hop ▸ hl)
  · rw [hop, hlayers]
    exact h.operands

theorem of_leaf (hop : t.op.isLeaf = true) (hcs : t.children = []) : Layered t := by
  obtain ⟨id, ⟨op, sort, payload⟩, cs, as⟩ := t
  have hnil : cs = [] := hcs
  subst hnil
  cases op with
  | var | lit =>
    refine ⟨fun l hl => ?_, rfl, fun hall => ?_⟩
    · exact absurd hl (by simp [Term.op, head, Op.layer?])
    · exact absurd hall (by simp [Term.op, head])
  | _ => exact absurd hop (by simp [Term.op, head, Op.isLeaf])

theorem children_of_name? (h : Layered t) {n : String} (hn : t.name? = some n) :
    t.children = [] := by
  have hops := h.operands
  rw [op_of_name? hn] at hops
  simpa [Op.takes, Op.operands?] using hops

theorem quantifier (h : Layered t) (hop : t.op = .all) :
    (∀ v ∈ t.children.dropLast, v.layer = .value) ∧
      ∃ b, t.children.getLast? = some b ∧ b.layer = .formula := by
  have hops := h.operands
  rw [hop] at hops
  simp only [Op.takes, Op.operands?, Bool.and_eq_true, beq_iff_eq, all_eq_true,
    ← map_dropLast, forall_mem_map, getLast?_map, Option.map_eq_some_iff] at hops
  exact hops

theorem of_quantifier {vs : List Term} (hop : t.op = .all) (hlayer : t.layer = .formula)
    (hcs : t.children = vs ++ [b]) (hvs : ∀ v ∈ vs, v.layer = .value ∧ ∃ n, v.name? = some n)
    (hb : b.layer = .formula) : Layered t := by
  refine ⟨fun l hl => ?_, ?_, fun _ v hv => ?_⟩
  · rw [hop] at hl
    exact hlayer.trans (Option.some.inj hl)
  · rw [hop, hcs]
    simp only [Op.takes, Op.operands?, Bool.and_eq_true, beq_iff_eq, all_eq_true,
      ← map_dropLast, forall_mem_map, getLast?_map, dropLast_concat,
      getLast?_concat, Option.map_some, hb, and_true]
    exact fun v hv => (hvs v hv).1
  · rw [hcs, dropLast_concat] at hv
    exact (hvs v hv).2

theorem of_uniform {k : Layer} (hk : t.op.operands? = some k)
    (hmade : ∀ l, t.op.layer? = some l → t.layer = l) (hcs : ∀ c ∈ t.children, c.layer = k) :
    Layered t := by
  refine ⟨hmade, ?_, fun hall => ?_⟩
  · rw [Op.takes_of_operands? hk]
    exact forall_mem_map.mpr hcs
  · rw [hall] at hk
    cases hk

end Layered

/-! ### Removing sharing -/

section Sharing

variable {A : List (Nat × Term)} {sort : TermSort}

theorem BareVar.layer_eq {n : String} (h : BareVar n sort v) : v.layer = sort.layer := by
  rw [layer, h.head]
  rfl

theorem BareVar.stratified {n : String} (h : BareVar n sort v) : Stratified v := by
  refine .intro (.of_leaf ?_ h.children) (by simp [h.children])
  rw [op_of_name? h.name?]
  rfl

theorem Written.layer_eq (hw : Written A t r) (hA : ∀ k u, (k, u) ∈ A → u.isShareable = true) :
    r.layer = t.layer := by
  rcases hw.cases with ⟨k, hk, hv⟩ | hr
  · rw [hv.layer_eq, layer_of_isShareable (hA k t hk)]
  · exact layer_eq_of_head hr.head

theorem Written.stratified (hw : Written A t r)
    (hA : ∀ k u, (k, u) ∈ A → u.isShareable = true) (ht : Stratified t) : Stratified r := by
  induction hw with
  | name _ hv => exact hv.stratified
  | @node t r hhead hall hlen hcs ih =>
    by_cases hop : t.op = .all
    · rwa [hall hop]
    have hlayers : Forall₂ (fun c e => e.layer = c.layer) t.children r.children :=
      forall₂_iff_zip.mpr ⟨hlen hop, fun {c e} hce => (hcs hop (c, e) hce).layer_eq hA⟩
    have hoperands : Forall₂ (fun _ e => Stratified e) t.children r.children :=
      forall₂_iff_zip.mpr ⟨hlen hop, fun {c e} hce =>
        ih hop (c, e) hce (ht.operand (of_mem_zip hce).1)⟩
    refine .intro (ht.layered.rebuild hhead ?_ fun h => absurd h hop) fun e he => ?_
    · exact Reading.map_eq_of_forall₂ hlayers
    · rcases exists_of_forall₂_right hoperands he with ⟨_, _, he⟩
      exact he

theorem Defines.stratified {k : Nat} {d : Term} (hd : Defines k r d)
    (hshare : r.isShareable = true) (hr : Stratified r) : Stratified d ∧ d.layer = .formula := by
  rcases hd.sides with ⟨v, hv, hsides⟩
  have hlayer : r.layer = r.sort.layer := layer_of_isShareable hshare
  have hdlayer : d.layer = .formula := by
    rw [layer, hd.head]
    split <;> rfl
  have hcs : ∀ c ∈ d.children, c.layer = r.sort.layer := by
    simp [hsides, hv.layer_eq, hlayer]
  refine ⟨.intro (.of_uniform ?_ (fun l hl => ?_) hcs) ?_, hdlayer⟩
  · rw [op, hd.head, TermSort.layer]
    split <;> rfl
  · rw [op, hd.head] at hl
    rw [hdlayer]
    split at hl <;> exact Option.some.inj hl
  · simp [hsides, hv.stratified, hr]

theorem Named.stratified {P : Term → Prop} {N M : Nat} {ds : List Term} (h : Named P N ds A M)
    (hP : ∀ t, P t → Stratified t) : ∀ d ∈ ds, Stratified d ∧ d.layer = .formula := by
  intro d hmem
  rcases h.exists_defines hmem with ⟨k, t, r, hk, hr, hd⟩
  rcases h.of_mem hk with ⟨_, _, ht, hshare⟩
  refine hd.stratified ((Reading.isShareable_of_head hr.head).trans hshare) ?_
  exact hr.written.stratified (fun j u hj => (h.of_mem hj).2.2.2) (hP t ht)

end Sharing

end Term

open Term

/-- The terms, with their definitions and axioms. -/
def Unshared.sent (u : Unshared) : List Term :=
  u.terms ++ u.definitions ++ u.axioms

/-- What is attached to the members of the stock are members of the kind. -/
def Stock.Attaches (A : Term → Prop) (W : Stock) : Prop :=
  ∀ t ∈ W.terms, ∀ a ∈ t.axioms, a ∈ W.terms ∧ A a

namespace Stock.Attaches

variable {A : Term → Prop} {W X : Stock} (hW : W.Attaches A)
include hW

theorem insert {t : Term} (hWX : W ≤ X) (hterms : X.terms = Insert.insert t W.terms)
    (ht : ∀ a ∈ t.axioms, a ∈ W.terms ∧ A a) : X.Attaches A := by
  intro u hu a ha
  rw [hterms] at hu
  rcases hu with rfl | hu
  · exact ⟨hWX.1 (ht a ha).1, (ht a ha).2⟩
  · exact ⟨hWX.1 (hW u hu a ha).1, (hW u hu a ha).2⟩

theorem carries : ∀ {t : Term}, t ∈ W.terms → Carries (fun a => a ∈ W.terms ∧ A a) t
  | .node id h cs as, ht => by
    refine .of_parts (fun c hc => carries (W.closed _ ht c hc)) fun a ha => ?_
    have hattached := hW _ ht a ha
    exact ⟨hattached, carries hattached.1⟩
termination_by t => sizeOf t
decreasing_by
  · have hlt := sizeOf_lt_of_mem (show c ∈ cs from hc)
    simp only [Term.node.sizeOf_spec]
    omega
  · have hlt := sizeOf_lt_of_mem (show a ∈ as from ha)
    simp only [Term.node.sizeOf_spec]
    omega

theorem builds_unshareAll {th : Theory} (hth : th.Advances) {P K : Term → Prop}
    (hP : ∀ t, P t → t.op ≠ .all → ∀ c ∈ t.children, P c) {ts : List Term}
    (hts : ∀ t ∈ ts, t ∈ W.terms ∧ P t)
    (hwritten : ∀ t ∈ ts, ∀ B r, (∀ k u, (k, u) ∈ B → u.isShareable = true) → Written B t r → K r)
    (hdefines : ∀ N M ds B, Named P N ds B M → ∀ d ∈ ds, K d)
    (hattached : ∀ a ∈ W.terms, A a → K a) :
    Builds W (th.unshareAll ts) fun X u => ∀ t ∈ u.sent, t ∈ X.terms ∧ K t := by
  have hcollected : ∀ a ∈ (ts.foldl AxiomBag.collect {}).items, a ∈ W.terms ∧ A a :=
    AxiomBag.items_collectAll (fun t ht => hW.carries (hts t ht).1) (by simp)
  intro s hs
  rcases Theory.builds_unshareAll hth hP hts s hs with ⟨X, hWX, hX, B, hds, hrs, hws⟩
  have hB : ∀ k u, (k, u) ∈ B → u.isShareable = true := fun k u hk => (hds.named.of_mem hk).2.2.2
  have hdefinitions : ∀ d, d ∈ _ → d ∈ X.terms ∧ K d := fun d hd =>
    ⟨hds.members d hd, hdefines _ _ _ _ hds.named d hd⟩
  refine ⟨X, hWX, hX, fun t ht => ?_⟩
  rcases mem_append.mp ht with ht | ht
  · rcases mem_append.mp ht with ht | ht
    · rcases exists_of_forall₂_right hws ht with ⟨r, hr, hw⟩
      exact ⟨hrs t ht, hwritten r hr B t hB hw⟩
    · exact hdefinitions t ht
  · -- The axioms are the definitions and what was collected.
    rcases mem_append.mp ht with ht | ht
    · exact hdefinitions t ht
    · rcases hcollected t ht with ⟨hmem, hkind⟩
      exact ⟨hWX.1 hmem, hattached t hmem hkind⟩

end Stock.Attaches

/-- All members of the stock are layered, and the axioms attached to them are
    formulas that are members too. -/
structure Stock.Layered (W : Stock) : Prop where
  member : ∀ t ∈ W.terms, t.Layered
  attached : W.Attaches fun a => a.layer = .formula

namespace Stock.Layered

variable {W : Stock} (hW : W.Layered)
include hW

theorem stratified {t : Term} (ht : t ∈ W.terms) : t.Stratified := by
  induction t using Term.induction with
  | step t ih => exact .intro (hW.member t ht) fun c hc => ih c hc (W.closed t ht c hc)

theorem carries {t : Term} (ht : t ∈ W.terms) :
    Carries (fun a => a ∈ W.terms ∧ a.layer = .formula) t :=
  hW.attached.carries ht

theorem raise (names : Nat) : (W.raise names).Layered :=
  ⟨hW.member, hW.attached⟩

theorem builds_unshareAll {th : Theory} (hth : th.Advances) {ts : List Term}
    (hts : ∀ t ∈ ts, t ∈ W.terms ∧ t.layer = .formula) :
    Builds W (th.unshareAll ts) fun _ u => ∀ t ∈ u.sent, t.Stratified ∧ t.layer = .formula := by
  have hroots : ∀ t ∈ ts, t ∈ W.terms ∧ t.Stratified :=
    fun t ht => ⟨(hts t ht).1, hW.stratified (hts t ht).1⟩
  refine (hW.attached.builds_unshareAll hth (fun t ht _ c hc => ht.operand hc) hroots
    (K := fun t => t.Stratified ∧ t.layer = .formula) (fun t ht B r hB hw => ?_)
    (fun _ _ _ _ h => h.stratified fun _ ht => ht)
    fun a ha hlayer => ⟨hW.stratified ha, hlayer⟩).mono fun _ _ _ h t ht => (h t ht).2
  exact ⟨hw.stratified hB (hroots t ht).2, (hw.layer_eq hB).trans (hts t ht).2⟩

end Stock.Layered

end Vouch
