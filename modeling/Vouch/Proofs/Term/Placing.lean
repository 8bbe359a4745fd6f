import Vouch.Proofs.Term.Connectives
import Vouch.Proofs.Term.Upkeep

/-!
# Terms in Their Places

Much of what is known of built terms is known for one reason: a node has it if its
operands are what the operator expects in their places. Which nodes a computation makes,
and in which order, is then the same for all such facts, and so is the argument for
substitution.

## Main definitions

* `Placing`: A fact, given by which terms fit which layer.
* `Placing.Suits`: It is so for single nodes.
* `Placing.Right`: A member of a stock that fits a layer.

## Theorems

* `Placing.Suits.upholds`: Then it is so for what is built of them.
* `Placing.Suits.leaves_subst`: And for what substitution makes of them.
-/

namespace Vouch

open List Term

/-- A kind of terms. Names and terms belong to layers, and functions to none. -/
structure Placing where
  names : Layer → String → Prop
  functions : String → Prop
  /-- The term can be put where something of the layer is expected. -/
  fits : Layer → Term → Prop
  /-- The term can be a node of a stock. -/
  node : Term → Prop
  /-- The term can be attached to a node. -/
  attached : Term → Prop

/-- What has to be known of single nodes: what they are if they are put together as they
    should be, what can be said of their operands, and what becomes of them if their
    operands are replaced. -/
structure Placing.Suits (P : Placing) : Prop where
  attach : ∀ {a : Term}, P.fits .formula a → P.attached a
  bool : ∀ {t : Term} {b : Bool} {sort : TermSort},
    t.head = { op := .lit, sort, payload := some (.bool b) } → t.children = [] →
    P.node t ∧ P.fits sort.layer t
  int : ∀ {t : Term} {n : Int}, t.head = { op := .lit, sort := .int, payload := some (.int n) } →
    t.children = [] → P.node t ∧ P.fits .value t
  var : ∀ {t : Term} {n : String}, t.name? = some n → t.children = [] → P.node t
  of_name? : ∀ {t : Term} {n : String}, P.node t → t.name? = some n →
    P.names t.sort.layer n → P.fits t.sort.layer t
  /-- Operators whose operands are all of one layer. -/
  operator : ∀ {t : Term} {k l : Layer}, t.op.operands? = some k → t.op.layer? = some l →
    t.layer = l → (∀ f, t.op = .app f → P.functions f) → (∀ c ∈ t.children, P.fits k c) →
    P.node t ∧ P.fits l t
  mapSelect : ∀ {t m i : Term}, t.op = .mapSelect → t.layer = .value → t.children = [m, i] →
    P.fits .value m → P.fits .indices i → P.node t ∧ P.fits .value t
  mapUpdate : ∀ {t m i v : Term}, t.op = .mapUpdate → t.layer = .value →
    t.children = [m, i, v] → P.fits .value m → P.fits .indices i → P.fits .value v →
    P.node t ∧ P.fits .value t
  all : ∀ {t b : Term} {vs : List Term}, t.op = .all → t.layer = .formula →
    t.children = vs ++ [b] → (∀ v ∈ vs, P.fits .value v ∧ ∃ n, v.name? = some n) →
    P.fits .formula b → P.node t ∧ P.fits .formula t
  operand : ∀ {t c : Term} {l : Layer}, P.node t → P.fits l t → c ∈ t.children → ∃ k, P.fits k c
  body : ∀ {t : Term} {l : Layer}, P.node t → P.fits l t → t.op = .all →
    ∃ vs b, t.children = vs ++ [b] ∧ (∀ v ∈ vs, P.fits .value v ∧ ∃ n, v.name? = some n) ∧
      P.fits .formula b
  name : ∀ {t : Term} {n : String} {l : Layer}, P.fits l t → t.name? = some n → P.names l n
  exchange : ∀ {k l : Layer} {n : String} {r : Term}, P.names k n → P.names l n →
    P.fits k r → P.fits l r
  renamed : ∀ {n : String} (k : Nat), P.names .value n → P.names .value (renamedBinder n k)
  /-- A binder with another name. -/
  rebind : ∀ {v u : Term} {m n : String}, P.fits .value v → v.name? = some m → P.node u →
    u.name? = some n → u.sort = v.sort → P.names .value n → P.fits .value u
  rebuild : ∀ {t r : Term} {l : Layer}, P.node t → P.fits l t → t.op ≠ .all → r.head = t.head →
    Forall₂ (fun c d => ∀ k, P.fits k c → P.fits k d) t.children r.children →
    P.node r ∧ P.fits l r
  requantify : ∀ {t r b : Term} {vs : List Term} {l : Layer}, P.node t → P.fits l t →
    t.op = .all → r.head = t.head → r.children = vs ++ [b] →
    (∀ v ∈ vs, P.fits .value v ∧ ∃ n, v.name? = some n) → P.fits .formula b →
    P.node r ∧ P.fits l r

/-- The axioms of the theory are members of the stock and of the given kind, and no
    nodes are made to attach them. -/
structure Theory.Rests (th : Theory) (A : Term → Prop) (W : Stock) : Prop where
  schemas : ∀ e ∈ th.schemas, ∀ cs, ∃ as, e.2 cs = pure as ∧ ∀ a ∈ as, a ∈ W.terms ∧ A a
  literals : ∀ a ∈ th.literalAxioms, a ∈ W.terms ∧ A a

namespace Theory.Rests

variable {th : Theory} {A : Term → Prop} {W X : Stock}

theorem mono (h : th.Rests A W) (hWX : W ≤ X) : th.Rests A X := by
  refine ⟨fun e he cs => ?_, fun a ha => ⟨hWX.1 (h.literals a ha).1, (h.literals a ha).2⟩⟩
  rcases h.schemas e he cs with ⟨as, hrun, has⟩
  exact ⟨as, hrun, fun a ha => ⟨hWX.1 (has a ha).1, (has a ha).2⟩⟩

theorem exists_make (h : th.Rests A W) (op : Op) (sort : TermSort) (cs : List Term) :
    ∃ as, th.make op sort cs = Term.make { op, sort } cs as ∧ ∀ a ∈ as, a ∈ W.terms ∧ A a := by
  unfold make
  split
  · next schema hfound =>
    rcases h.schemas _ (mem_of_lookup hfound) cs with ⟨as, hrun, has⟩
    dsimp only at hrun
    exact ⟨as, by rw [hrun, pure_bind], has⟩
  · exact ⟨[], by rw [pure_bind], by simp⟩

end Theory.Rests

/-- The members of the stock are nodes of the kind, what is attached to them are members
    that can be attached, and the axioms of the theory are among those. -/
structure Stock.Placed (P : Placing) (th : Theory) (W : Stock) : Prop where
  node : ∀ t ∈ W.terms, P.node t
  attached : W.Attaches P.attached
  rests : th.Rests P.attached W

theorem Stock.Placed.raise {P : Placing} {th : Theory} {W : Stock} (hW : W.Placed P th)
    (names : Nat) : (W.raise names).Placed P th :=
  ⟨hW.node, hW.attached, hW.rests.schemas, hW.rests.literals⟩

/-- The term is a member of the stock that fits the layer. -/
structure Placing.Right (P : Placing) (l : Layer) (X : Stock) (t : Term) : Prop where
  mem : t ∈ X.terms
  fits : P.fits l t

theorem Placing.Right.mono {P : Placing} {l : Layer} {W X : Stock} {t : Term}
    (h : P.Right l W t) (hWX : W ≤ X) : P.Right l X t :=
  ⟨hWX.1 h.mem, h.fits⟩

/-- The stock goes with the supply, and it is one of such terms. -/
def Placing.Fits (P : Placing) (th : Theory) (W : Stock) (s : Supply) : Prop :=
  W.Fits s ∧ W.Placed P th

section Fits

variable {α : Type} {P : Placing} {th : Theory} {W : Stock} {m : Fresh α} {Q : Stock → α → Prop}

theorem Placing.leaves_of_placed (h : W.Placed P th → Leaves (P.Fits th) W m Q) :
    Leaves (P.Fits th) W m Q :=
  fun s hs => h hs.2 s hs

theorem Placing.leaves_placed (h : Leaves (P.Fits th) W m Q) :
    Leaves (P.Fits th) W m fun X a => X.Placed P th ∧ Q X a := by
  intro s hs
  rcases h s hs with ⟨X, hWX, hX, hQ⟩
  exact ⟨X, hWX, hX, hX.2, hQ⟩

end Fits

/-! ### Stocks of such terms -/

namespace Placing

variable {P : Placing} {th : Theory} {W : Stock}

theorem leaves_name (base : String) :
    Leaves (P.Fits th) W (Fresh.name base) fun _ n => ∃ k, n = versionName base k := by
  rintro s ⟨hs, hW⟩
  have hadv : s.Advances ((Fresh.name base).run s).2 := ⟨rfl, le_rfl, Nat.le_succ _⟩
  rcases Stock.fits_raise hs hadv with ⟨hle, hfits⟩
  exact ⟨_, hle, ⟨hfits, hW.raise _⟩, s.nextName, rfl⟩

variable {as cs : List Term}

theorem leaves_make {h : Head} (hcs : ∀ c ∈ cs, c ∈ W.terms)
    (has : ∀ a ∈ as, a ∈ W.terms ∧ P.attached a)
    (hnew : ∀ t : Term, t.head = h → t.children = cs → P.node t) :
    Leaves (P.Fits th) W (Term.make h cs as) (Made h cs) := by
  rintro s ⟨hs, hW⟩
  rcases builds_insert hcs h as s hs with ⟨X, hWX, hX, hterms, hhead, hchildren, haxioms⟩
  refine ⟨X, hWX, ⟨hX, fun u hu => ?_, hW.attached.insert hWX hterms (haxioms ▸ has),
    hW.rests.mono hWX⟩, hterms ▸ Set.mem_insert _ _, hhead, hchildren⟩
  rw [hterms] at hu
  rcases hu with rfl | hu
  · exact hnew _ hhead hchildren
  · exact hW.node u hu

theorem leaves_withChildren {t : Term} (ht : t ∈ W.terms) (hcs : ∀ c ∈ cs, c ∈ W.terms)
    (hnew : ∀ r : Term, r.head = t.head → r.children = cs → P.node r) :
    Leaves (P.Fits th) W (t.withChildren cs) (Made t.head cs) := by
  rcases withChildren_cases ht hcs with ⟨heq, hrun⟩ | ⟨_, hrun⟩ <;> rw [hrun]
  · exact leaves_pure ⟨ht, rfl, heq.symm⟩
  · exact leaves_of_placed fun hW => leaves_make hcs (hW.attached t ht) hnew

theorem leaves_right {h : Head} {l : Layer} (hcs : ∀ c ∈ cs, c ∈ W.terms)
    (has : ∀ a ∈ as, a ∈ W.terms ∧ P.attached a)
    (hnew : ∀ t : Term, t.head = h → t.children = cs → P.node t ∧ P.fits l t) :
    Leaves (P.Fits th) W (Term.make h cs as) (P.Right l) := by
  refine (leaves_make hcs has fun t hhead hts => (hnew t hhead hts).1).mono fun _ t _ ht => ?_
  exact ⟨ht.1, (hnew t ht.2.1 ht.2.2).2⟩

theorem leaves_node {op : Op} {sort : TermSort} {l : Layer} (hcs : ∀ c ∈ cs, c ∈ W.terms)
    (hnew : ∀ t : Term, t.head = { op, sort } → t.children = cs → P.node t ∧ P.fits l t) :
    Leaves (P.Fits th) W (th.make op sort cs) (P.Right l) := by
  refine leaves_of_placed fun hW => ?_
  rcases hW.rests.exists_make op sort cs with ⟨as, hmake, has⟩
  rw [hmake]
  exact leaves_right hcs has hnew

end Placing

/-! ### Constructors -/

namespace Placing.Suits

variable {P : Placing} {th : Theory} {W X : Stock} (hP : P.Suits)
include hP

theorem of_variable {n : String} {sort : TermSort} {t : Term} (hW : W.Placed P th)
    (ht : Term.Variable n sort W t) (hn : P.names sort.layer n) : P.Right sort.layer W t := by
  refine ⟨ht.has.1, ?_⟩
  rw [← ht.sort_eq] at hn ⊢
  exact hP.of_name? (hW.node t ht.has.1) ht.name? hn

variable {as : List Term}

theorem leaves_var (n : String) (sort : TermSort) (has : ∀ a ∈ as, P.Right .formula W a) :
    Leaves (P.Fits th) W (Term.make { op := .var, sort, payload := some (.name n) } [] as)
      (Term.Variable n sort) := by
  refine (leaves_make (by simp) (fun a ha => ⟨(has a ha).mem, hP.attach (has a ha).fits⟩)
    fun t hhead hts => hP.var (n := n) ?_ hts).mono fun X t _ ht => ht.variable
  rw [name?, op, payload, hhead]

theorem leaves_named (sort : TermSort) {n : String} (hn : P.names sort.layer n)
    (has : ∀ a ∈ as, P.Right .formula W a) :
    Leaves (P.Fits th) W (Term.make { op := .var, sort, payload := some (.name n) } [] as)
      fun X t => Term.Variable n sort X t ∧ P.Right sort.layer X t := by
  refine (leaves_placed (hP.leaves_var n sort has)).mono fun _ _ _ ht => ?_
  exact ⟨ht.2, hP.of_variable ht.1 ht.2 hn⟩

theorem leaves_all {vs : List Term} {b : Term}
    (hvs : ∀ v ∈ vs, P.Right .value W v ∧ ∃ n, v.name? = some n) (hb : P.Right .formula W b) :
    Leaves (P.Fits th) W (th.all vs b) (P.Right .formula) := by
  unfold Theory.all
  split
  · exact leaves_pure hb
  · exact leaves_node (forall_mem_append.mpr ⟨fun v hv => (hvs v hv).1.mem,
      forall_mem_singleton.mpr hb.mem⟩) fun t hhead hts =>
        hP.all (congrArg Head.op hhead) (by rw [layer, hhead]; rfl) hts
          (fun v hv => ⟨(hvs v hv).1.fits, (hvs v hv).2⟩) hb.fits

/-- What nodes have by their operands is kept up by all constructors. -/
theorem upholds (th : Theory) : th.Upholds (.single (P.Fits th)) P.functions P.Right where
  mono hWX ht := ht.mono hWX
  formula _ := Leaves.copies <|
    leaves_right (by simp) (by simp) fun _ hhead hts => hP.bool hhead hts
  int _ := Leaves.copies <| leaves_right (by simp) (by simp) fun _ hhead hts => hP.int hhead hts
  boolLit _ := Leaves.copies <| leaves_of_placed fun hW =>
    leaves_right (by simp) hW.rests.literals fun _ hhead hts => hP.bool hhead hts
  make {_ op _ _ _ _} hk hl hsort hop hts := by
    refine Leaves.copies (leaves_node (fun c hc => (hts c hc).mem) fun t hhead hcs => ?_)
    have htop : t.op = op := congrArg Head.op hhead
    refine hP.operator (htop ▸ hk) (htop ▸ hl) ?_ (htop ▸ hop) fun c hc => ?_
    · rw [layer, hhead, hsort]
    · exact (hts c (hcs ▸ hc)).fits
  mapSelect hm hi hsort := Leaves.copies <|
    leaves_node (by simp [hm.mem, hi.mem]) fun t hhead hts =>
      hP.mapSelect (congrArg Head.op hhead) (by rw [layer, hhead]; exact hsort) hts hm.fits hi.fits
  mapUpdate hm hi hv := Leaves.copies <|
    leaves_node (by simp [hm.mem, hi.mem, hv.mem]) fun t hhead hts =>
      hP.mapUpdate (congrArg Head.op hhead) (by rw [layer, hhead]; rfl) hts hm.fits hi.fits hv.fits

/-! ### Substitution -/

theorem leaves_renameBinders (inc : List String) : ∀ {W : Stock} (vs : List Term)
    (taken : List String) {σ : Subst}, (∀ v ∈ vs, P.Right .value W v ∧ ∃ n, v.name? = some n) →
    σ.Respects P.names P.Right W →
    Leaves (P.Fits th) W (Subst.renameBinders inc vs taken σ) fun X p =>
      (∀ v ∈ p.1, P.Right .value X v ∧ ∃ n, v.name? = some n) ∧ p.2.Respects P.names P.Right X
  | W, [], taken, σ, _, hσ => leaves_pure ⟨by simp, hσ⟩
  | W, v :: vs, taken, σ, hvs, hσ => by
    rcases forall_mem_cons.mp hvs with ⟨⟨hv, n, hn⟩, hrest⟩
    have hvn : P.names .value n := hP.name hv.fits hn
    unfold Subst.renameBinders
    simp only [hn]
    split
    · -- The new name is the old one with a number.
      rcases freshNumbered_spec n taken with ⟨_, k, hk⟩
      rw [hk]
      refine leaves_bind (leaves_placed (hP.leaves_var _ v.sort (by simp))) fun X u hWX hu => ?_
      rcases hu with ⟨hX, hvar⟩
      have hu : P.Right .value X u := ⟨hvar.has.1, hP.rebind hv.fits hn
        (hX.node u hvar.has.1) hvar.name? hvar.sort_eq (hP.renamed k hvn)⟩
      refine leaves_bind (leaves_renameBinders inc vs _
        (fun w hw => ⟨(hrest w hw).1.mono hWX, (hrest w hw).2⟩)
        ((hσ.mono (·.mono hWX)).insert ⟨_, hvn, hu⟩)) fun Y p hXY hp => ?_
      exact leaves_pure ⟨forall_mem_cons.mpr ⟨⟨hu.mono hXY, _, hvar.name?⟩, hp.1⟩, hp.2⟩
    · refine leaves_bind (leaves_renameBinders inc vs taken hrest hσ) fun X p hWX hp => ?_
      exact leaves_pure ⟨forall_mem_cons.mpr ⟨⟨hv.mono hWX, n, hn⟩, hp.1⟩, hp.2⟩

end Placing.Suits

/-- What the term becomes fits where the term does. A variable that is not replaced stays
    a variable of its name. -/
structure Placing.Kept (P : Placing) (σ : Subst) (t r : Term) : Prop where
  fits : ∀ l, P.fits l t → P.fits l r
  name : ∀ n, t.name? = some n → σ.find? n = none → r.name? = some n

theorem Placing.Kept.refl (P : Placing) (σ : Subst) (t : Term) : P.Kept σ t t :=
  ⟨fun _ h => h, fun _ h _ => h⟩

/-- Terms that fit some layer are kept in their places if what replaces names fits
    theirs. -/
def Placing.keeping (P : Placing) (th : Theory) : Passage Stock :=
  .ofStock (P.Fits th) (fun σ W t => (∃ l, P.fits l t) ∧ σ.Respects P.names P.Right W) P.Kept
    fun hWX h => ⟨h.1, h.2.mono (·.mono hWX)⟩

namespace Placing.Suits

variable {P : Placing} {th : Theory} {W : Stock} {σ : Subst} {t : Term} {memo : NodeMap Term}
  (hP : P.Suits)
include hP

variable {l : Layer} {cs : List Term}

theorem leaves_requantify (σ : Subst) (ht : t ∈ W.terms) (hop : t.op = .all) (hl : P.fits l t)
    {vs : List Term} {b : Term} (hvs : ∀ v ∈ vs, P.Right .value W v ∧ ∃ n, v.name? = some n)
    (hb : P.Right .formula W b) :
    Leaves (P.Fits th) W (t.withChildren (vs ++ [b])) fun X r => r ∈ X.terms ∧ P.Kept σ t r := by
  refine leaves_of_placed fun hW => ?_
  have hnew : ∀ (r : Term) (k : Layer), P.fits k t → r.head = t.head → r.children = vs ++ [b] →
      P.node r ∧ P.fits k r := fun r k hk hhead hrcs =>
    hP.requantify (hW.node t ht) hk hop hhead hrcs
      (fun v hv => ⟨(hvs v hv).1.fits, (hvs v hv).2⟩) hb.fits
  refine (leaves_withChildren ht (forall_mem_append.mpr ⟨fun v hv => (hvs v hv).1.mem,
    forall_mem_singleton.mpr hb.mem⟩) fun r hhead hrcs => (hnew r l hl hhead hrcs).1).mono
    fun X r _ hr => ?_
  rcases hr with ⟨hmem, hhead, hrcs⟩
  refine ⟨hmem, fun k hk => (hnew r k hk hhead hrcs).2, fun n hn _ => ?_⟩
  rw [name?_of_op_all hop] at hn
  cases hn

theorem leaves_below (ht : t ∈ W.terms) (hl : P.fits l t) (hσ : σ.Respects P.names P.Right W)
    (ih : ∀ c ∈ t.children, (P.keeping th).Substitutes c) (hop : t.op = .all)
    (hmemo : (P.keeping th).Remembers σ W memo) (taken : List String) :
    Leaves (P.Fits th) W (do
      let p ← Subst.renameBinders σ.incoming t.children.dropLast taken (σ.eraseAll t.boundNames)
      let body ← substLast p.2 p.2.incoming t.children
      let r ← t.withChildren (p.1 ++ body.toList)
      pure (r, memo)) ((P.keeping th).Rebuilt σ t) := by
  refine leaves_of_placed fun hW => ?_
  rcases hP.body (hW.node t ht) hl hop with ⟨vs, b, hcs, hvs, hb⟩
  have hmem : ∀ c ∈ vs ++ [b], c ∈ W.terms := fun c hc => W.closed t ht c (hcs ▸ hc)
  have hlast : t.children.getLast? = some b := by rw [hcs, getLast?_concat]
  rw [hcs, dropLast_concat, ← hcs]
  refine leaves_bind (hP.leaves_renameBinders σ.incoming vs taken
    (fun v hv => ⟨⟨hmem v (by simp [hv]), (hvs v hv).1⟩, (hvs v hv).2⟩) (hσ.eraseAll _))
    fun X p hWX hp => ?_
  rcases hp with ⟨hvars, hinner⟩
  refine leaves_bind ((ih b (by simp [hcs])).substLast (hWX.1 (hmem b (by simp)))
    ⟨⟨_, hb⟩, hinner⟩ (fun _ => .refl P _ b) hlast) fun Y body hXY hbody => ?_
  rcases hbody with ⟨b', rfl, hb'Y, hkept⟩
  refine leaves_bind (hP.leaves_requantify σ (hXY.1 (hWX.1 ht)) hop hl
    (fun v hv => ⟨(hvars v hv).1.mono hXY, (hvars v hv).2⟩) ⟨hb'Y, hkept.fits _ hb⟩)
    fun Z r hYZ hr => ?_
  exact leaves_pure ⟨hr.1, hr.2, hmemo.mono (hWX.trans (hXY.trans hYZ))⟩

theorem leaves_rebuild (ht : t ∈ W.terms) (hop : t.op ≠ .all) (hl : P.fits l t)
    (hcs : ∀ c ∈ cs, c ∈ W.terms)
    (hrel : Forall₂ (fun c d => ∀ k, P.fits k c → P.fits k d) t.children cs) :
    Leaves (P.Fits th) W (t.withChildren cs) fun X r =>
      r ∈ X.terms ∧ r.head = t.head ∧ ∀ k, P.fits k t → P.fits k r := by
  refine leaves_of_placed fun hW => ?_
  have hnew : ∀ (r : Term) (k : Layer), P.fits k t → r.head = t.head → r.children = cs →
      P.node r ∧ P.fits k r := fun r k hk hhead hrcs =>
    hP.rebuild (hW.node t ht) hk hop hhead (hrcs ▸ hrel)
  refine (leaves_withChildren ht hcs fun r hhead hrcs => (hnew r l hl hhead hrcs).1).mono
    fun X r _ hr => ?_
  rcases hr with ⟨hmem, hhead, hrcs⟩
  exact ⟨hmem, hhead, fun k hk => (hnew r k hk hhead hrcs).2⟩

theorem leaves_renewed (ht : t ∈ W.terms) (hl : P.fits l t)
    (hmeets : ¬ σ.meets σ.incoming t.boundNames = true) (hcs : ∀ c ∈ cs, c ∈ W.terms)
    (hrel : Forall₂ (P.Kept σ) t.children cs) :
    Leaves (P.Fits th) W (t.withChildren cs) fun X r => r ∈ X.terms ∧ P.Kept σ t r := by
  by_cases hop : t.op = .all
  · refine leaves_of_placed fun hW => ?_
    rcases hP.body (hW.node t ht) hl hop with ⟨vs, b, hchildren, hvs, hb⟩
    rw [hchildren] at hrel
    rcases forall₂_concat hrel with ⟨us, b', rfl, hus, hb'⟩
    refine hP.leaves_requantify σ ht hop hl (fun u hu => ?_) ⟨hcs b' (by simp), hb'.fits _ hb⟩
    -- Nothing replaces a bound name here, so what was bound is still a variable.
    rcases exists_of_forall₂_right hus hu with ⟨v, hv, hkept⟩
    rcases hvs v hv with ⟨hfits, n, hn⟩
    have hbound : n ∈ t.boundNames := by
      rw [boundNames_of_op_all hop, hchildren, dropLast_concat]
      exact mem_filterMap.mpr ⟨v, hv, hn⟩
    exact ⟨⟨hcs u (by simp [hu]), hkept.fits _ hfits⟩, n,
      hkept.name n hn (meets_eq_false hmeets n hbound).1⟩
  · refine (hP.leaves_rebuild ht hop hl hcs (hrel.imp fun _ _ h => h.fits)).mono fun X r _ hr => ?_
    rcases hr with ⟨hmem, hhead, hfits⟩
    exact ⟨hmem, hfits, fun n hn _ => (name?_eq_of_head hhead).trans hn⟩

theorem leaves_first (ih : ∀ c ∈ t.children, (P.keeping th).Substitutes c) (ht : t ∈ W.terms)
    (hready : (P.keeping th).ready σ W t) (hmemo : (P.keeping th).Remembers σ W memo) :
    Leaves (P.Fits th) W (substFirst σ σ.incoming t memo) ((P.keeping th).Rebuilt σ t) := by
  rcases hready with ⟨⟨l, hl⟩, hσ⟩
  unfold substFirst
  split
  · next r hfound =>
    -- Whichever layer the variable is put in, its name is of that layer.
    rcases Option.bind_eq_some_iff.mp hfound with ⟨n, hn, hr⟩
    rcases hσ n r hr with ⟨k, hk, hright⟩
    refine leaves_pure ⟨hright.mem, ⟨fun j hj => ?_, fun m hm hnone => ?_⟩, hmemo⟩
    · exact hP.exchange hk (hP.name hj hn) hright.fits
    · rw [hn, Option.some.injEq] at hm
      rw [hm, hnone] at hr
      cases hr
  · split
    · next hmeets => exact hP.leaves_below ht hl hσ ih (op_of_meets hmeets) hmemo _
    · next hmeets =>
      refine leaves_of_placed fun hW => ?_
      refine leaves_bind (Passage.leaves_substNodes ih (fun c hc =>
        ⟨W.closed t ht c hc, hP.operand (hW.node t ht) hl hc, hσ⟩) hmemo) fun X p hWX hp => ?_
      rcases hp with ⟨hmem, hrel, hmemo'⟩
      refine leaves_bind (hP.leaves_renewed (hWX.1 ht) hl hmeets hmem hrel) fun Y r hXY hr => ?_
      exact leaves_pure ⟨hr.1, hr.2, hmemo'.mono hXY⟩

/-- A replaced node stays in its place, and so does the node above it. -/
theorem leaves_subst (ht : P.Right l W t) (hσ : σ.Respects P.names P.Right W) :
    Leaves (P.Fits th) W (t.subst σ) fun X r => r ∈ X.terms ∧ ∀ k, P.fits k t → P.fits k r := by
  have h : (P.keeping th).Substitutes t :=
    Passage.substitutes_of_first (fun _ ih _ _ _ => hP.leaves_first ih) t
  exact (h.subst ht.mem ⟨⟨l, ht.fits⟩, hσ⟩ fun _ => .refl P σ t).mono
    fun _ _ _ hr => ⟨hr.1, hr.2.fits⟩

end Placing.Suits

end Vouch
