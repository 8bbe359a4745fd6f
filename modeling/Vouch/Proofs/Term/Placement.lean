import Vouch.Proofs.Term.Placing

/-!
# Terms in Their Layers

Terms can be placed by their layers: a term fits where its layer is expected, the
nodes are layered, and formulas are attached to them. Substitution keeps every node in
its layer if no name is one of formulas and of values, and if a renamed binder is
spelled like a value again.

## Main definitions

* `Spelling`: Names for the variables of each layer.
* `Spelling.placing`: Terms of a layer, spelled accordingly.

## Theorems

* `Spelling.suits`: Single nodes stay in their layers.
-/

namespace Vouch

open List Term

/-- Names for the variables of each layer. -/
structure Spelling where
  /-- The name can be that of a variable of the layer. -/
  names : Layer → String → Prop
  unique : ∀ k l n, names k n → names l n → k = l
  renamed : ∀ n k, names .value n → names .value (renamedBinder n k)

namespace Term

/-- The variables of the term have names of their layers. -/
def Spelled (N : Spelling) : Term → Prop :=
  Everywhere fun h => ∀ n sort, h = { op := .var, sort, payload := some (.name n) } →
    N.names sort.layer n

variable {N : Spelling} {t r : Term}

theorem Spelled.names (h : Spelled N t) {n : String} (hn : t.name? = some n) :
    N.names t.layer n := by
  rw [layer_of_name? hn]
  exact h.head n t.sort (head_of_name? hn)

theorem Spelled.operand (h : Spelled N t) {c : Term} (hc : c ∈ t.children) : Spelled N c :=
  Everywhere.operand h hc

theorem Spelled.of_var {n : String} (hn : t.name? = some n) (hcs : t.children = [])
    (h : N.names t.layer n) : Spelled N t := by
  refine .intro (fun m sort hhead => ?_) (by simp [hcs])
  have hname : t.name? = some m := by rw [name?, op, payload, hhead]
  have hsort : t.sort = sort := congrArg Head.sort hhead
  rw [hn, Option.some.injEq] at hname
  rw [← hsort, ← layer_of_name? hn, ← hname]
  exact h

theorem Spelled.of_operands (hop : t.op ≠ .var) (h : ∀ c ∈ t.children, Spelled N c) : Spelled N t :=
  .intro (fun _ _ hhead => absurd (congrArg Head.op hhead) hop) h

/-- The term is a member of the stock, of the layer, and spelled accordingly. -/
structure Lies (N : Spelling) (l : Layer) (X : Stock) (t : Term) : Prop where
  mem : t ∈ X.terms
  layer : t.layer = l
  spelled : Spelled N t

end Term

/-- Terms of the layer, spelled accordingly, whatever their functions are called. -/
def Spelling.placing (N : Spelling) : Placing where
  names := N.names
  functions _ := True
  fits l t := t.layer = l ∧ Spelled N t
  node := Layered
  attached a := a.layer = .formula

namespace Term

variable {N : Spelling} {l : Layer} {t r : Term}

theorem fits_of_operands (hl : t.layer = l) (hop : t.op ≠ .var)
    (h : ∀ c ∈ t.children, Spelled N c) : N.placing.fits l t :=
  ⟨hl, .of_operands hop h⟩

theorem fits_lit {h : Head} (hhead : t.head = h) (hop : h.op = .lit) (hcs : t.children = []) :
    Layered t ∧ N.placing.fits h.sort.layer t := by
  have htop : t.op = .lit := (congrArg Head.op hhead).trans hop
  have hlayer : t.layer = h.sort.layer := by
    rw [layer_of_op_ne (by simp [htop]), Term.sort, hhead]
  exact ⟨.of_leaf (by rw [htop]; rfl) hcs, fits_of_operands hlayer (by simp [htop]) (by simp [hcs])⟩

theorem fits_mapSelect {m i : Term} (hop : t.op = .mapSelect) (hl : t.layer = .value)
    (hcs : t.children = [m, i]) (hm : N.placing.fits .value m) (hi : N.placing.fits .indices i) :
    Layered t ∧ N.placing.fits .value t := by
  refine ⟨⟨fun l h => ?_, ?_, fun hall => absurd hall (by simp [hop])⟩,
    fits_of_operands hl (by simp [hop]) (by simp [hcs, hm.2, hi.2])⟩
  · rw [hop] at h
    rw [hl, ← Option.some.inj h]
  · rw [hop, hcs, map_cons, map_cons, map_nil, hm.1, hi.1]
    rfl

theorem fits_mapUpdate {m i v : Term} (hop : t.op = .mapUpdate) (hl : t.layer = .value)
    (hcs : t.children = [m, i, v]) (hm : N.placing.fits .value m)
    (hi : N.placing.fits .indices i) (hv : N.placing.fits .value v) :
    Layered t ∧ N.placing.fits .value t := by
  refine ⟨⟨fun l h => ?_, ?_, fun hall => absurd hall (by simp [hop])⟩,
    fits_of_operands hl (by simp [hop]) (by simp [hcs, hm.2, hi.2, hv.2])⟩
  · rw [hop] at h
    rw [hl, ← Option.some.inj h]
  · rw [hop, hcs, map_cons, map_cons, map_cons, map_nil, hm.1, hi.1, hv.1]
    rfl

theorem fits_quantifier {vs : List Term} {b : Term} (hop : t.op = .all) (hl : t.layer = .formula)
    (hcs : t.children = vs ++ [b])
    (hvs : ∀ v ∈ vs, N.placing.fits .value v ∧ ∃ n, v.name? = some n)
    (hb : N.placing.fits .formula b) : Layered t ∧ N.placing.fits .formula t := by
  refine ⟨.of_quantifier hop hl hcs (fun v hv => ⟨(hvs v hv).1.1, (hvs v hv).2⟩) hb.1,
    fits_of_operands hl (by simp [hop]) fun c hc => ?_⟩
  rw [hcs] at hc
  rcases mem_append.mp hc with hc | hc
  · exact (hvs c hc).1.2
  · exact mem_singleton.mp hc ▸ hb.2

theorem Layered.fits_body (ht : Layered t) (hl : N.placing.fits l t)
    (hop : t.op = .all) : ∃ vs b, t.children = vs ++ [b] ∧
      (∀ v ∈ vs, N.placing.fits .value v ∧ ∃ n, v.name? = some n) ∧
      N.placing.fits .formula b := by
  rcases ht.quantifier hop with ⟨hvalues, b, hb, hformula⟩
  refine ⟨t.children.dropLast, b, (dropLast_append_getLast? b hb).symm, fun v hv => ?_,
    hformula, hl.2.operand (mem_of_getLast? hb)⟩
  exact ⟨⟨hvalues v hv, hl.2.operand (mem_of_mem_dropLast hv)⟩, ht.binders hop v hv⟩

theorem Layered.fits_rebuild (ht : Layered t) (hl : N.placing.fits l t)
    (hop : t.op ≠ .all) (hhead : r.head = t.head) (hcs : Forall₂
      (fun c d => ∀ k, N.placing.fits k c → N.placing.fits k d) t.children r.children) :
    Layered r ∧ N.placing.fits l r := by
  have hspelled : ∀ c ∈ t.children, Spelled N c := fun c hc => hl.2.operand hc
  have hfits : Forall₂ (fun c d => N.placing.fits c.layer d) t.children r.children :=
    ((forall₂_and_left _ _).mpr ⟨hspelled, hcs⟩).imp fun _ _ h => h.2 _ ⟨rfl, h.1⟩
  have hlayers := Reading.map_eq_of_forall₂ (hfits.imp fun _ _ h => h.1)
  refine ⟨ht.rebuild hhead hlayers fun hall => absurd hall hop,
    (layer_eq_of_head hhead).trans hl.1, .intro (hhead ▸ hl.2.head) fun d hd => ?_⟩
  rcases exists_of_forall₂_right hfits hd with ⟨_, _, h⟩
  exact h.2

end Term

theorem Spelling.suits (N : Spelling) : N.placing.Suits where
  attach h := h.1
  bool hhead hcs := fits_lit hhead rfl hcs
  int hhead hcs := fits_lit hhead rfl hcs
  var hn hcs := .of_leaf (by rw [op_of_name? hn]; rfl) hcs
  of_name? ht hn hnames := by
    rw [← layer_of_name? hn] at hnames ⊢
    exact ⟨rfl, .of_var hn (Layered.children_of_name? ht hn) hnames⟩
  operator hk hl hlayer _ hcs := by
    refine ⟨.of_uniform hk (fun m hm => ?_) fun c hc => (hcs c hc).1,
      fits_of_operands hlayer ?_ fun c hc => (hcs c hc).2⟩
    · rw [hl, Option.some.injEq] at hm
      rw [hlayer, hm]
    · intro hvar
      rw [hvar] at hk
      cases hk
  mapSelect := fits_mapSelect
  mapUpdate := fits_mapUpdate
  all := fits_quantifier
  operand _ hl hc := ⟨_, rfl, hl.2.operand hc⟩
  body := Layered.fits_body
  name hl hn := hl.1 ▸ hl.2.names hn
  exchange hk hl hr := N.unique _ _ _ hk hl ▸ hr
  renamed k hn := N.renamed _ k hn
  rebind hv hm hu hn hsort hnames := by
    have hlayer : Term.layer _ = .value := (layer_of_name? hn).trans
      (hsort ▸ (layer_of_name? hm).symm.trans hv.1)
    exact ⟨hlayer, .of_var hn (Layered.children_of_name? hu hn) (hlayer ▸ hnames)⟩
  rebuild := Layered.fits_rebuild
  requantify ht hl hop hhead hcs hvs hb := by
    have hformula := Layered.made ht .formula (by rw [hop]; rfl)
    have hr := fits_quantifier ((congrArg Head.op hhead).trans hop)
      ((layer_eq_of_head hhead).trans hformula) hcs hvs hb
    rw [← hl.1, hformula]
    exact hr

namespace Stock

variable {N : Spelling} {th : Theory} {W : Stock}

theorem Placed.layered (hW : W.Placed N.placing th) : W.Layered :=
  ⟨hW.node, hW.attached⟩

theorem Layered.placed (hW : W.Layered) (hth : th.Rests (fun a => a.layer = .formula) W) :
    W.Placed N.placing th :=
  ⟨hW.member, hW.attached, hth⟩

end Stock

end Vouch
