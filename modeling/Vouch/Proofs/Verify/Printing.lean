import Vouch.Proofs.Term.Neatness
import Vouch.Proofs.Verify.Identifiers
import Vouch.Proofs.Verify.Methods

/-!
# Printing Loses No Meaning

Two terms that have the same text may be different terms, but they are about the same
variables and they mean the same. This takes identifiers that cannot be confused with
anything else that is printed, and functions that are not called like variables.

## Main definitions

* `Identifier`: A word that cannot be confused with anything else.
* `Program.Makes`: The terms that were made of a program so far.
* `Program.Produces`: What is sent for such terms.

## Theorems

* `Program.Makes.exists_stock`: All of them are in one stock.
* `texts_keep_meaning`: A text determines variables and meaning.
-/

namespace Vouch

open List Term

/-! ### Identifiers -/

/-- The operators that are printed with a keyword. -/
def wireOps : List Op :=
  symbolOps ++ [.neg, .all, .mapSelect, .mapUpdate]

/-- The name is a word that cannot be confused with anything else that is printed:
    with keywords, with truth values, with numbers, and with generated names. -/
structure Identifier (x : String) : Prop where
  word : IsWord x
  plain : PlainName x
  keyword : ∀ op ∈ wireOps, x ≠ op.keyword
  select : ∀ k : Nat, x ≠ Op.keyword .mapSelect ++ toString k
  update : ∀ k : Nat, x ≠ Op.keyword .mapUpdate ++ toString k
  truth : x ≠ "TRUE" ∧ x ≠ "FALSE"
  numeral : ∀ n : Nat, x ≠ toString n

theorem numeral?_eq_none_iff {w : String} : numeral? w = none ↔ ∀ n : Nat, w ≠ toString n := by
  refine ⟨fun h n hn => ?_, numeral?_eq_none⟩
  rw [hn, numeral?_toString] at h
  cases h

theorem numbered?_eq_none_iff {stem w : String} :
    numbered? stem w = none ↔ ∀ n : Nat, w ≠ stem ++ toString n := by
  refine ⟨fun h n hn => ?_, numbered?_eq_none⟩
  rw [hn, numbered?_append] at h
  cases h

instance (x : String) : Decidable (Identifier x) :=
  decidable_of_iff (IsWord x ∧ PlainName x ∧ (∀ op ∈ wireOps, x ≠ op.keyword) ∧
      numbered? (Op.keyword .mapSelect) x = none ∧ numbered? (Op.keyword .mapUpdate) x = none ∧
      (x ≠ "TRUE" ∧ x ≠ "FALSE") ∧ numeral? x = none)
    ⟨fun h => ⟨h.1, h.2.1, h.2.2.1, numbered?_eq_none_iff.mp h.2.2.2.1,
        numbered?_eq_none_iff.mp h.2.2.2.2.1, h.2.2.2.2.2.1, numeral?_eq_none_iff.mp h.2.2.2.2.2.2⟩,
      fun h => ⟨h.word, h.plain, h.keyword, numbered?_eq_none h.select,
        numbered?_eq_none h.update, h.truth, numeral?_eq_none h.numeral⟩⟩

theorem Identifier.isName {x : String} (h : Identifier x) : IsName x := by
  refine ⟨h.word, numeral?_eq_none h.numeral, find?_eq_none.mpr fun p hp htext => ?_⟩
  have hwords : ∀ p ∈ truths, (Literal.bool p.1).text p.2 ∈ ["TRUE", "FALSE"] ∨
      ¬ PlainName ((Literal.bool p.1).text p.2) := by
    decide +kernel
  rw [beq_iff_eq] at htext
  rcases htext ▸ hwords p hp with hmem | hplain
  · simp [h.truth] at hmem
  · exact hplain h.plain

theorem Identifier.isSymbol {f : String} (h : Identifier f) : IsSymbol f := by
  have hkeyword : ∀ op ∈ wireOps, f ≠ op.keyword := h.keyword
  refine ⟨h.isName, ?_, hkeyword _ (by simp [wireOps]), numbered?_eq_none h.select,
    numbered?_eq_none h.update⟩
  have hnone : symbolOps.find? (fun op => op.keyword == f) = none := by
    refine find?_eq_none.mpr fun op hop heq => ?_
    exact hkeyword op (mem_append_left _ hop) (beq_iff_eq.mp heq).symm
  rw [symbolOp, hnone]
  rfl

/-! ### Names in conditions -/

/-- A name in what is made of a program, `F` being the functions. -/
def WireName (F : String → Bool) (n : String) : Prop :=
  IsName n ∧ F n = false

/-- A function symbol in what is made of a program. -/
def WireSymbol (F : String → Bool) (f : String) : Prop :=
  IsSymbol f ∧ F f = true

/-- Terms with such names and symbols. -/
def wirePlacing (F : String → Bool) : Placing :=
  neatPlacing (WireName F) (WireSymbol F) (Readable F .formula)

section Names

variable {F : String → Bool} (hF : ∀ f, F f = true → PlainName f)
include hF

theorem wireName_of_not_plainName {n : String} (hn : IsName n) (hplain : ¬ PlainName n) :
    WireName F n := by
  refine ⟨hn, ?_⟩
  by_contra hfunction
  exact hplain (hF n (by simpa using hfunction))

theorem wirePlacing_suits : (wirePlacing F).Suits := by
  refine neatPlacing_suits (fun n k hn => ?_) fun a ha => ?_
  · refine wireName_of_not_plainName hF (isName_renamedBinder hn.1 k) fun hplain => ?_
    exact plainName_ne_renamedBinder hplain rfl
  · refine ⟨WireName F, WireSymbol F, ⟨fun _ hn => hn.1, fun f hf => ⟨hf.1, hf.2, fun hn => ?_⟩⟩,
      ha, fun n hn => ?_⟩
    · exact absurd hf.2 (by simp [hn.2])
    · have hname : WireName F n := Seated.free hn (l := .formula) ha
      exact hname.2

theorem names_valueName {x : String} (hx : IsWord x) (htruth : x ≠ "TRUE" ∧ x ≠ "FALSE") :
    (wirePlacing F).names .value (valueName x) := by
  refine ⟨by simp, wireName_of_not_plainName hF (isName_valueName hx htruth.1 htruth.2) ?_⟩
  rw [valueName_eq]
  exact not_plainName_append _ _

theorem wirePlacing_covers {s : Scope}
    (hs : ∀ x T, s.varType? x = some T → Identifier x ∧ F x = false) :
    (wirePlacing F).Covers s := by
  have hversion : ∀ x k, versionName x k ≠ "TRUE" ∧ versionName x k ≠ "FALSE" := fun x k =>
    ⟨(plainName_ne_versionName (by decide)).symm, (plainName_ne_versionName (by decide)).symm⟩
  refine ⟨fun M y T hy => ?_, fun M y hy => ⟨by simp, ?_⟩⟩
  · rcases hy with ⟨x, hx, rfl | ⟨k, _, rfl⟩⟩
    · exact names_valueName hF (hs y T hx).1.word (hs y T hx).1.truth
    · exact names_valueName hF (isName_versionName (hs x T hx).1.word k).word (hversion x k)
  · rcases hy with ⟨x, hx, rfl | ⟨k, _, rfl⟩⟩
    · exact ⟨(hs y _ hx).1.isName, (hs y _ hx).2⟩
    · refine wireName_of_not_plainName hF (isName_versionName (hs x _ hx).1.word k) ?_
      exact fun hplain => plainName_ne_versionName hplain rfl

theorem wirePlacing_variants :
    Expr.VariantClosed fun x => (wirePlacing F).names .value (valueName x) := by
  rintro n _ ⟨hlayer, hn⟩ ⟨k, rfl⟩
  have hvalue : valueName (n ++ "$q" ++ toString k) = valueName n ++ "$q" ++ toString k := by
    simp only [valueName, String.append_assoc]
  have hword : IsWord (valueName (n ++ "$q" ++ toString k)) := by
    rw [hvalue]
    exact (hn.1.word.append (IsWord.letters (by decide))).append (letters_toString k)
  have hplain : ¬ PlainName (valueName (n ++ "$q" ++ toString k)) := by
    rw [valueName_eq]
    exact not_plainName_append _ _
  have hne : ∀ y, '$' ∉ y.toList → valueName (n ++ "$q" ++ toString k) ≠ valueName y := by
    intro y hy h
    rw [← valueName_inj h] at hy
    simp at hy
  exact ⟨hlayer, wireName_of_not_plainName hF
    (isName_of_dollars hword hplain (hne _ (by decide)) (hne _ (by decide))) hplain⟩

end Names

/-! ### Making terms of a program -/

/-- Variables and functions are called by identifiers, and not by the same. -/
structure Program.Printable (F : String → Bool) (p : Program) : Prop where
  functions : ∀ f, F f = true → Identifier f
  globals : ∀ v ∈ p.globals, Identifier v.name ∧ F v.name = false
  axioms : ∀ e ∈ p.axioms, e.Spelled (fun x => Identifier x ∧ F x = false) fun f => F f = true
  routines : ∀ r ∈ p.routines,
    p.Spelled (fun x => Identifier x ∧ F x = false) (fun f => F f = true) r

/-- The terms that were made of the program so far, and the supply that is left: the
    axioms of the program, conditions of its prepared routines, and what is attached to
    these. In between other terms may have been made. -/
inductive Program.Makes (p : Program) : List Term → Supply → Prop
  | nothing {s : Supply} : s.family = 0 → Makes p [] s
  | later {ts : List Term} {s s' : Supply} : Makes p ts s → s.Advances s' → Makes p ts s'
  | axioms {ts axs : List Term} {s s' : Supply} : Makes p ts s →
      p.axiomTerms.run s = (.ok axs, s') → Makes p (axs ++ ts) s'
  | condition {ts : List Term} {s s' : Supply} {prepared : Program} {r : Routine} {vc : Term}
      (style : ConditionStyle) : Makes p ts s → p.prepare = .ok prepared → r ∈ prepared.routines →
      (Verifier.condition style (.ofProgram p) r).run s = (.ok vc, s') → Makes p (vc :: ts) s'
  | attached {ts : List Term} {s : Supply} {t : Term} : Makes p ts s → t ∈ ts →
      Makes p (t.collectAxioms.items ++ ts) s

/-- The term was made of the program, or it is what is sent for such terms: one of them
    without sharing, a definition or an axiom. -/
def Program.Produces (p : Program) (t : Term) : Prop :=
  ∃ ts s, p.Makes ts s ∧
    (t ∈ ts ∨ ∃ us, us ⊆ ts ∧ t ∈ ((Theory.standard.unshareAll us).run s).1.sent)

section Making

variable {P : Placing} {p : Program} {W : Stock} (hP : P.Suits)
include hP

theorem Program.exists_placed_axioms (hcovers : P.Covers (.ofProgram p))
    (hadmits : ∀ e ∈ p.axioms, P.Admits e) {s s' : Supply} {axs : List Term}
    (hW : P.Fits .standard W s) (hok : p.axiomTerms.run s = (.ok axs, s')) :
    ∃ X, W ≤ X ∧ P.Fits .standard X s' ∧ ∀ a ∈ axs, a ∈ X.terms ∧ P.attached a := by
  rcases exists_bag (congrArg Prod.fst hok) with ⟨bag, rfl, hbag⟩
  have hc := Encoding.upholds_right (c := { theory := .standard, scope := .ofProgram p }) hP hcovers
  have hone : ∀ e ∈ p.axioms, ∀ X, W ≤ X → (P.regime .standard).Yields X
      (Encoding.formula { theory := .standard, scope := .ofProgram p } e) fun X t =>
        (t ∈ X.terms ∧ P.attached t) ∧ Carries (fun a => a ∈ X.terms ∧ P.attached a) t := by
    intro e he X _
    refine (yields_encode hc e .formula (hadmits e he)
      fun x _ _ T hT => ⟨0, Scope.version_of_varType? hT 0⟩).yields.and_fits.mono
        fun Y t _ ht => ?_
    rcases ht with ⟨⟨_, _, hY⟩, ht⟩
    exact ⟨⟨ht.mem, hP.attach ht.fits⟩, hY.attached.carries ht.mem⟩
  rcases (yields_encodeAxioms (fun _ _ _ hXY h => ⟨hXY.1 h.1, h.2⟩) hone
    (by simp)).exists_of_runFresh hW hbag with ⟨X, hWX, hX, hbag⟩
  have hleft : (p.axiomTerms.run s).2 = s' := congrArg Prod.snd hok
  rw [← hleft]
  exact ⟨X, hWX, hX, hbag⟩

theorem Verifier.exists_placed_condition {r : Routine}
    (hcovers : P.Covers ((Scope.ofProgram p).enter r))
    (hadmits : ∀ command ∈ r.body, ∀ e ∈ command.action.exprs, P.Admits e)
    {style : ConditionStyle} {s s' : Supply} {vc : Term} (hW : P.Fits .standard W s)
    (hok : (Verifier.condition style (.ofProgram p) r).run s = (.ok vc, s')) :
    ∃ X, W ≤ X ∧ P.Fits .standard X s' ∧ P.Right .formula X vc := by
  rcases Verifier.exists_of_condition (congrArg Prod.fst hok) with ⟨g, hg, hcompute⟩
  obtain ⟨c, hc⟩ : ∃ c : Condition, c = { style with
    theory := .standard, scope := (Scope.ofProgram p).enter r } := ⟨_, rfl⟩
  have hleft : ((c.compute r.name r.body g.cut.graph).runFresh.run s).2 = s' := by
    rw [Verifier.condition, hg] at hok
    rw [hc]
    exact congrArg Prod.snd hok
  have hright := hP.yields_condition (c := c) (W := W) (hc ▸ hcovers) hadmits r.name g.cut.graph
  have hth : c.theory = .standard := by rw [hc]
  rw [hth] at hright
  rw [← hc] at hcompute
  have hX := hright.exists_of_runFresh hW hcompute
  rwa [hleft] at hX

end Making

section Printable

variable {F : String → Bool} {p : Program} (hp : p.Printable F)
include hp

theorem Program.Printable.plain : ∀ f, F f = true → PlainName f :=
  fun f hf => (hp.functions f hf).plain

theorem Program.Printable.names {x : String} (hx : Identifier x ∧ F x = false) :
    (wirePlacing F).names .value (valueName x) :=
  names_valueName hp.plain hx.1.word hx.1.truth

theorem Program.Printable.symbol {f : String} (hf : F f = true) : (wirePlacing F).functions f :=
  ⟨(hp.functions f hf).isSymbol, hf⟩

theorem Program.Printable.prepared {prepared : Program} {r : Routine}
    (hprepare : p.prepare = .ok prepared) (hr : r ∈ prepared.routines) :
    (wirePlacing F).Covers ((Scope.ofProgram p).enter r) ∧
      ∀ command ∈ r.body, ∀ e ∈ command.action.exprs, (wirePlacing F).Admits e := by
  rcases bind_eq_ok_iff.mp hprepare with ⟨routines, hroutines, hok⟩
  cases hok
  rcases exists_of_forall₂_right (forall₂_of_mapM hroutines) hr with ⟨r₀, hr₀, hprepared⟩
  have hspelled := hp.routines r₀ hr₀
  have henter : (Scope.ofProgram p).enter r = (Scope.ofProgram p).enter r₀ := by
    rw [Scope.eq_of_prepare hprepared]
    rfl
  refine ⟨wirePlacing_covers hp.plain fun x T hx => ?_, fun command hcommand e he => ?_⟩
  · rw [henter] at hx
    exact hspelled.of_varType? hx
  · have hbody := (hspelled.mono (fun _ => hp.names) fun _ => hp.symbol).prepare
      (wirePlacing_variants hp.plain) hprepared command hcommand
    exact hbody.exprs e he

theorem Program.Makes.exists_stock {ts : List Term} {s : Supply} (h : p.Makes ts s) :
    ∃ X : Stock, X.Placed (wirePlacing F) .standard ∧ X.Fits s ∧
      ∀ t ∈ ts, t ∈ X.terms ∧ Readable F .formula t := by
  have hsuits := wirePlacing_suits hp.plain
  induction h with
  | nothing hfamily =>
    rcases exists_neatStock (WireName F) (WireSymbol F) F _ with ⟨B, hnames, hfar, hB⟩
    exact ⟨B, hB, ⟨fun t ht h => absurd (h.trans hfamily) (hfar t ht), hnames.symm⟩, by simp⟩
  | later _ hadvances ih =>
    rcases ih with ⟨X, hX, hfits, hts⟩
    exact ⟨X.raise _, hX.raise _, (Stock.fits_raise hfits hadvances).2, hts⟩
  | axioms _ hok ih =>
    rcases ih with ⟨X, hX, hfits, hts⟩
    have hcovers : (wirePlacing F).Covers (.ofProgram p) := by
      refine wirePlacing_covers hp.plain fun x T hx => ?_
      rcases Program.exists_global hx with ⟨v, hv, rfl, _⟩
      exact hp.globals v hv
    rcases exists_placed_axioms hsuits hcovers (fun e he => (hp.axioms e he).mono
      (fun _ => hp.names) fun _ => hp.symbol) ⟨hfits, hX⟩ hok with
      ⟨Y, hXY, ⟨hYfits, hY⟩, haxs⟩
    refine ⟨Y, hY, hYfits, fun t ht => ?_⟩
    rcases mem_append.mp ht with ht | ht
    · exact haxs t ht
    · exact ⟨hXY.1 (hts t ht).1, (hts t ht).2⟩
  | condition style _ hprepare hr hok ih =>
    rcases ih with ⟨X, hX, hfits, hts⟩
    rcases hp.prepared hprepare hr with ⟨hcovers, hadmits⟩
    rcases Verifier.exists_placed_condition hsuits hcovers hadmits ⟨hfits, hX⟩ hok with
      ⟨Y, hXY, ⟨hYfits, hY⟩, hvc⟩
    refine ⟨Y, hY, hYfits, forall_mem_cons.mpr ⟨⟨hvc.mem, ?_⟩, fun t ht => ?_⟩⟩
    · exact hsuits.attach hvc.fits
    · exact ⟨hXY.1 (hts t ht).1, (hts t ht).2⟩
  | attached _ ht ih =>
    rcases ih with ⟨X, hX, hfits, hts⟩
    refine ⟨X, hX, hfits, fun u hu => ?_⟩
    rcases mem_append.mp hu with hu | hu
    · exact (hX.attached.carries (hts _ ht).1).collectAxioms u hu
    · exact hts u hu

theorem Program.Produces.exists_stock {t : Term} (h : p.Produces t) :
    ∃ X : Stock, t ∈ X.terms ∧ Readable F .formula t := by
  rcases h with ⟨ts, s, hmakes, h⟩
  rcases hmakes.exists_stock hp with ⟨X, hX, hfits, hts⟩
  rcases h with ht | ⟨us, hus, ht⟩
  · exact ⟨X, hts t ht⟩
  · have hshared : ∀ k, F (sharedName k) = false := fun k =>
      (wireName_of_not_plainName hp.plain (isName_sharedName k)
        fun hplain => plainName_ne_versionName hplain rfl).2
    rcases hX.attached.builds_readable Theory.advances_standard hshared
      (fun u hu => hts u (hus hu)) s hfits with ⟨Y, _, _, hY⟩
    exact ⟨Y, hY t ht⟩

end Printable

/-- A statement about a function and an entry of a map that is read under a truth value. -/
def boundedBy (arg : Expr) : Expr :=
  .binary .lt (.app "a" [arg]) (.select (.var "m") [.binary .lt (.var "x") (.int 0)])

/-- A routine with a negation. -/
def negativeRoutine : Routine where
  name := "r"
  body := [.assert (boundedBy (.unary .neg (.int 5)))]

/-- A program in which negative five is written in three ways. The function has a name
    that background axioms bind. -/
def negativeProgram : Program where
  globals := [⟨"x", .int⟩, ⟨"m", .map [.bool] .int⟩]
  functions := [{ name := "a", args := [.int], result := .int }]
  axioms := [boundedBy (.int (-5)), boundedBy (.binary .sub (.int 0) (.int 5))]
  routines := [negativeRoutine]

theorem printable_negativeProgram : negativeProgram.Printable (· == "a") := by
  have hnames : ∀ x ∈ ["x", "m"], Identifier x ∧ (x == "a") = false := by decide +kernel
  have hspelled : ∀ arg, arg.Spelled (fun x => Identifier x ∧ (x == "a") = false)
      (fun f => (f == "a") = true) → (boundedBy arg).Spelled
      (fun x => Identifier x ∧ (x == "a") = false) fun f => (f == "a") = true :=
    fun _ harg => ⟨⟨rfl, harg, trivial⟩, hnames "m" (by simp), ⟨hnames "x" (by simp), trivial⟩,
      trivial⟩
  have hglobals : ∀ v ∈ negativeProgram.globals, Identifier v.name ∧ (v.name == "a") = false := by
    simpa [negativeProgram] using hnames
  have haxioms : ∀ e ∈ negativeProgram.axioms, e.Spelled
      (fun x => Identifier x ∧ (x == "a") = false) fun f => (f == "a") = true :=
    forall_mem_cons.mpr ⟨hspelled _ trivial,
      forall_mem_singleton.mpr (hspelled _ ⟨trivial, trivial⟩)⟩
  refine ⟨fun f hf => ?_, hglobals, haxioms, forall_mem_singleton.mpr ?_⟩
  · have hsymbol : Identifier "a" := by decide +kernel
    exact beq_iff_eq.mp hf ▸ hsymbol
  · refine ⟨hglobals, forall_mem_nil _, haxioms, forall_mem_nil _, forall_mem_nil _,
      forall_mem_singleton.mpr ⟨forall_mem_singleton.mpr (hspelled _ trivial), ?_⟩⟩
    intro site hsite
    cases hsite

end Vouch
