import Vouch.Proofs.Condition.Stratification

/-!
# Names on the Wire

A prover knows a variable by its name only. A condition has variables of three origins:
those of the program, those that expressions bind, and those that the verifier
introduces. The verifier marks what it introduces with `$$`.

## Main definitions

* `Scope.WireOf`: The wire names of a variable.
* `Scope.Introduced`: The names of versions, shared parts and renamed binders.

## Theorems

* `wire_names_apart`: Variables that must not be confused have different names.
-/

namespace Vouch

open List Term

/-- The text is a wire name of the variable: its formula if it is boolean, and its
    value, also if it is only bound somewhere. -/
inductive Scope.WireOf (s : Scope) (B : String → Prop) (x n : String) : Prop
  | formula : s.varType? x = some .bool → n = x → WireOf s B x n
  | value {T : Ty} : s.varType? x = some T → n = valueName x → WireOf s B x n
  | bound : B x → n = valueName x → WireOf s B x n

/-- The text is the wire name of a variable that was introduced: a version of a
    declared variable, a variable for a shared part or a renamed binder. -/
inductive Scope.Introduced (s : Scope) (n : String) : Prop
  | formula {x : String} {k : Nat} : s.varType? x = some .bool → n = versionName x k →
      Introduced s n
  | value {x : String} {T : Ty} {k : Nat} : s.varType? x = some T →
      n = valueName (versionName x k) → Introduced s n
  | shared (k : Nat) : n = sharedName k → Introduced s n
  | renamed (x : String) (k : Nat) : n = valueName (renamedBinder x k) → Introduced s n

/-- The text is a wire name, of the program or introduced. -/
def Scope.Accounted (s : Scope) (B : String → Prop) (n : String) : Prop :=
  (∃ x, s.WireOf B x n) ∨ s.Introduced n

/-- Introduced names are no names of plain variables, distinct variables have
    distinct names, and no name is the text of a truth value. -/
structure Scope.NamesApart (s : Scope) (B : String → Prop) : Prop where
  introduced : ∀ x n, PlainName x → s.WireOf B x n → ¬ s.Introduced n
  distinct : ∀ x y n, s.WireOf B x n → s.WireOf B y n → x = y
  literal : ∀ n, s.Accounted B n → ∀ b sort, n ≠ (Literal.bool b).text sort

/-! ### Telling names apart -/

section Apart

variable {s : Scope} {B : String → Prop} {x n : String}

theorem Scope.Introduced.not_plainName (h : s.Introduced n) : ¬ PlainName n := by
  intro hn
  rcases h with ⟨_, hn'⟩ | ⟨_, hn'⟩ | ⟨_, hn'⟩ | ⟨_, _, hn'⟩
  · exact plainName_ne_versionName hn hn'
  · exact plainName_ne_valueName hn hn'
  · exact plainName_ne_versionName hn hn'
  · exact plainName_ne_valueName hn hn'

theorem Scope.Introduced.ne_valueName (h : s.Introduced n) (hx : PlainName x)
    (hsep : ∀ y k, s.varType? y = some .bool → versionName y k ≠ valueName x) :
    n ≠ valueName x := by
  rintro rfl
  rcases h with ⟨hy, hn⟩ | ⟨_, hn⟩ | ⟨_, hn⟩ | ⟨_, _, hn⟩
  · exact hsep _ _ hy hn.symm
  · exact plainName_ne_versionName hx (valueName_inj hn)
  · -- Only a version of `term` or of `term$` could be read as a value.
    rcases eq_term_of_versionName_eq_valueName (by decide) hn.symm with h | h
    · exact absurd h (by decide)
    · exact absurd h (by decide)
  · exact plainName_ne_renamedBinder hx (valueName_inj hn)

theorem Scope.Introduced.not_wireOf (hsep : s.Separated) (hB : s.SeparatedFrom B)
    (hx : PlainName x) (h : s.Introduced n) : ¬ s.WireOf B x n := by
  rintro (⟨_, rfl⟩ | ⟨hT, hn⟩ | ⟨hx', hn⟩)
  · exact h.not_plainName hx
  · exact h.ne_valueName hx (fun y k hy => hsep y x _ k hy hT) hn
  · exact h.ne_valueName hx (fun y k hy => hB y x k hy hx') hn

theorem Scope.WireOf.unique (hs : s.PlainNames) {y : String} (h : s.WireOf B x n)
    (h' : s.WireOf B y n) : x = y := by
  have hcases : ∀ {z}, s.WireOf B z n → PlainName n ∧ n = z ∨ n = valueName z := by
    rintro z (⟨hz, rfl⟩ | ⟨_, hn⟩ | ⟨_, hn⟩)
    · exact .inl ⟨hs _ _ hz, rfl⟩
    · exact .inr hn
    · exact .inr hn
  rcases hcases h with ⟨hn, hx⟩ | hx
  · rcases hcases h' with ⟨_, hy⟩ | hy
    · exact hx.symm.trans hy
    · exact absurd hy (plainName_ne_valueName hn)
  · rcases hcases h' with ⟨hn, _⟩ | hy
    · exact absurd hx (plainName_ne_valueName hn)
    · exact valueName_inj (hx.symm.trans hy)

theorem Literal.text_bool_cases (b : Bool) (sort : TermSort) :
    ∃ w, (w = "TRUE" ∨ w = "FALSE") ∧ PlainName w ∧
      ((Literal.bool b).text sort = w ∨ (Literal.bool b).text sort = valueName w) := by
  refine ⟨if b then "TRUE" else "FALSE", ?_, ?_, ?_⟩
  · cases b
    · exact .inr rfl
    · exact .inl rfl
  · cases b <;> decide
  · cases hsort : sort.isFormula with
    | true => exact .inl (by rw [Literal.text, hsort]; rfl)
    | false => exact .inr (by rw [Literal.text, hsort]; rfl)

theorem Scope.Introduced.ne_literal (h : s.Introduced n) (b : Bool) (sort : TermSort) :
    n ≠ (Literal.bool b).text sort := by
  rcases Literal.text_bool_cases b sort with ⟨w, hw, hplain, htext⟩
  have hversion : ∀ x k, versionName x k ≠ valueName w := by
    intro x k heq
    have hdollar : '$' ∉ w.toList := by
      rcases hw with rfl | rfl <;> decide
    -- Both words end in `E`, which is no digit, so that `w` is not the number.
    rw [versionName, valueName_eq] at heq
    have hnumber := (dollars_inj (dollar_not_mem_toString k) hdollar heq).2
    refine not_mem_toString (c := 'E') (by decide) k ?_
    rw [hnumber]
    rcases hw with rfl | rfl <;> decide
  rcases htext with htext | htext
  · rw [htext]
    rintro rfl
    exact h.not_plainName hplain
  · rw [htext]
    exact h.ne_valueName hplain fun y k _ => hversion y k

theorem Scope.WireOf.ne_literal (hs : s.PlainNames) (h : s.WireOf B x n)
    (hx : x ≠ "TRUE" ∧ x ≠ "FALSE") (b : Bool) (sort : TermSort) :
    n ≠ (Literal.bool b).text sort := by
  rcases Literal.text_bool_cases b sort with ⟨w, hw, hplain, htext⟩
  have hne : x ≠ w := by
    rcases hw with rfl | rfl
    · exact hx.1
    · exact hx.2
  have hvalue : valueName x ≠ (Literal.bool b).text sort := by
    rcases htext with htext | htext
    · rw [htext]
      exact (plainName_ne_valueName hplain).symm
    · rw [htext]
      exact fun heq => hne (valueName_inj heq)
  rcases h with ⟨hT, rfl⟩ | ⟨_, rfl⟩ | ⟨_, rfl⟩
  · rcases htext with htext | htext
    · rw [htext]
      exact hne
    · rw [htext]
      exact plainName_ne_valueName (hs _ _ hT)
  · exact hvalue
  · exact hvalue

theorem Scope.namesApart (hs : s.PlainNames) (hsep : s.Separated) (hB : s.SeparatedFrom B)
    (hwords : ∀ x n, s.WireOf B x n → x ≠ "TRUE" ∧ x ≠ "FALSE") : s.NamesApart B where
  introduced _ _ hx h h' := h'.not_wireOf hsep hB hx h
  distinct _ _ _ h h' := h.unique hs h'
  literal n hn b sort := by
    rcases hn with ⟨x, h⟩ | h
    · exact h.ne_literal hs (hwords x n h) b sort
    · exact h.ne_literal b sort

end Apart

/-! ### Names in conditions -/

section Accounted

variable {s : Scope} {B : String → Prop} {n : String} {l : Layer} {t : Term}

theorem Scope.Wire.exists_valueName (h : s.Wire B l n) (hl : l = .value) :
    ∃ x, n = valueName x := by
  induction h with
  | formula _ => cases hl
  | value _ | mentioned _ => exact ⟨_, rfl⟩
  | renamed _ ih =>
    rcases ih rfl with ⟨x, rfl⟩
    exact ⟨_, (valueName_renamedBinder x _).symm⟩

theorem Scope.Wire.accounted (h : s.Wire B l n) : s.Accounted B n := by
  cases h with
  | formula hy =>
    rcases hy with ⟨x, hx, hn | ⟨k, _, hn⟩⟩
    · exact .inl ⟨x, .formula hx hn⟩
    · exact .inr (.formula hx hn)
  | value hy =>
    rcases hy with ⟨x, hx, hn | ⟨k, _, hn⟩⟩
    · exact .inl ⟨x, .value hx (congrArg valueName hn)⟩
    · exact .inr (.value hx (congrArg valueName hn))
  | mentioned hy => exact .inl ⟨_, .bound hy rfl⟩
  | renamed hm =>
    rcases hm.exists_valueName rfl with ⟨x, rfl⟩
    exact .inr (.renamed x _ (valueName_renamedBinder x _).symm)

/-- The head is not that of a variable, or its name is a wire name. -/
def Head.Accounted (s : Scope) (B : String → Prop) (h : Head) : Prop :=
  ∀ n sort, h = { op := .var, sort, payload := some (.name n) } → s.Accounted B n

theorem Term.Lies.accounted {N : Spelling} (hN : N.names = s.Wire B) {X : Stock}
    (h : Lies N l X t) : Everywhere (Head.Accounted s B) t := by
  refine Everywhere.mono h.spelled fun hd hnames n sort hvar => ?_
  have hwire := hnames n sort hvar
  rw [hN] at hwire
  exact hwire.accounted

theorem Term.Everywhere.accounted (h : Everywhere (Head.Accounted s B) t) (hn : Mentions n t) :
    s.Accounted B n := by
  rcases h.of_mentions hn with ⟨sort, hhead⟩
  exact hhead n sort rfl

theorem Theory.builds_unshare_accounted {th : Theory} (hth : th.Advances) {W : Stock}
    (ht : t ∈ W.terms) (haccounted : Everywhere (Head.Accounted s B) t) :
    Builds W (th.unshare t) fun _ u =>
      (∀ d ∈ u.definitions, ∃ k v r, d.children = [v, r] ∧ v.name? = some (sharedName k)) ∧
      ∀ r ∈ u.terms ++ u.definitions, Everywhere (Head.Accounted s B) r := by
  have hvar : ∀ k sort, Head.Accounted s B (sharedHead k sort) := by
    intro k sort n sort' heq
    simp only [sharedHead, Head.mk.injEq, Option.some.injEq, Literal.name.injEq] at heq
    exact .inr (.shared k heq.2.2.symm)
  have hother : ∀ op, op ≠ .var → Head.Accounted s B { op, sort := .formula } :=
    fun op hop n sort heq => absurd (congrArg Head.op heq) hop
  refine (Theory.builds_unshareAll hth (fun _ h _ _ hc => h.operand hc)
    (forall_mem_singleton.mpr ⟨ht, haccounted⟩)).mono fun X u _ hu => ?_
  rcases hu with ⟨A, hds, _, hws⟩
  refine ⟨fun d hd => ?_, fun r hr => ?_⟩
  · rcases hds.named.exists_defines hd with ⟨k, _, r, _, _, hdefines⟩
    rcases hdefines.sides with ⟨v, hv, hcs⟩
    exact ⟨k, v, r, hcs, hv.name?⟩
  · rcases mem_append.mp hr with hr | hr
    · rcases exists_of_forall₂_right hws hr with ⟨t', ht', hw⟩
      rw [mem_singleton.mp ht'] at hw
      exact hw.everywhere (fun k _ _ => hvar k) haccounted
    · exact hds.named.everywhere (fun _ h => h) (fun k _ => hvar k) (hother _ (by simp))
        (hother _ (by simp)) r hr

end Accounted

/-! ### Versions -/

/-- The terms of a variable have its wire names. -/
def VarTerms.NamedAfter (x : String) (p : VarTerms) : Prop :=
  p.term.name? = some (valueName x) ∧ ∀ f, p.formula = some f → f.name? = some x

theorem gives_linkedPair_namedAfter (c : Encoding) (x : String) :
    Gives (c.linkedPair x) (VarTerms.NamedAfter x) := by
  refine fun s => ⟨rfl, ?_⟩
  rintro _ ⟨⟩
  rfl

theorem yields_freshVariable_introduced {c : Condition} {x : String} {T : Ty}
    (hx : c.scope.varType? x = some T) :
    (Regime.ofPairs VarTerms.NamedAfter fun _ => True).Yields () (c.freshVariable x T) fun _ p =>
      ∀ e ∈ p.entries x, ∃ n, e.2.name? = some n ∧ c.scope.Introduced n := by
  unfold Encoding.freshVariable
  refine yields_bind (yields_lift (gives_name x).leaves) fun _ y _ hy => ?_
  rcases hy with ⟨k, rfl⟩
  refine (yields_pairOf fun _ => gives_linkedPair_namedAfter _ _).mono fun _ p _ hp e he => ?_
  rcases mem_cons.mp he with rfl | he
  · rcases hp with ⟨_, hp⟩ | ⟨_, hvar⟩
    · exact ⟨_, hp.1, .value hx rfl⟩
    · exact ⟨_, hvar.name?, .value hx rfl⟩
  · obtain ⟨f, hf, rfl⟩ : ∃ f, p.formula = some f ∧ (x, f) = e := by simpa using he
    rcases hp with ⟨rfl, hp⟩ | ⟨hnone, _⟩
    · exact ⟨_, hp.2 f hf, .formula hx rfl⟩
    · rw [hnone] at hf
      cases hf

theorem keeps_versions_introduced (c : Condition) (vars : List String) :
    Keeps VarTerms.NamedAfter (c.versions vars) fun σ =>
      ∀ r ∈ σ.values, ∃ n, r.name? = some n ∧ c.scope.Introduced n := by
  refine Regime.Yields.keeps (E := fun _ => True) ?_
  unfold Condition.versions
  refine yields_foldlM (fun r hr => absurd hr not_mem_nil) fun _ σ _ hσ x _ => ?_
  refine yields_bind (yields_variableType _ x trivial) fun _ T _ hT => ?_
  refine yields_bind (yields_freshVariable_introduced hT) fun _ p _ hp => yields_pure fun r hr => ?_
  rcases NameMap.mem_values_insertAll hr with hr | ⟨e, he, rfl⟩
  · exact hσ r hr
  · exact hp e he

/-! ### Conditions and their unshared forms -/

/-- The names that a prover sees can be told apart. Variables that are overwritten
    live on as introduced variables, and definitions are of introduced variables.
    Every variable of a condition, and of its terms and definitions without sharing,
    has a wire name of the program or an introduced one. Introduced names are no names
    of the program, distinct variables have distinct names, and none of them is the
    text of a truth value. -/
theorem wire_names_apart {c : Condition} {body : Body} {g : FlowGraph} {name : String}
    {supply : Supply} {vc : Term} (hth : c.theory = .standard) (hs : c.scope.PlainNames)
    (hsep : c.scope.Separated) (hbody : c.scope.SeparatedFrom body.Mentions)
    (hwords : ∀ x n, c.scope.WireOf body.Mentions x n → x ≠ "TRUE" ∧ x ≠ "FALSE")
    (hfamily : supply.family = 0)
    (hok : ((c.compute name body g).runFresh.run supply).1 = .ok vc) :
    (∀ vars, Keeps VarTerms.NamedAfter (c.versions vars) fun σ =>
      ∀ r ∈ σ.values, ∃ n, r.name? = some n ∧ c.scope.Introduced n) ∧
    (∀ n, Mentions n vc → c.scope.Accounted body.Mentions n) ∧
    (∀ later, ((c.compute name body g).runFresh.run supply).2.Advances later →
      (∀ d ∈ ((c.theory.unshare vc).run later).1.definitions,
        ∃ k v r, d.children = [v, r] ∧ v.name? = some (sharedName k)) ∧
      ∀ t ∈ ((c.theory.unshare vc).run later).1.terms ++
        ((c.theory.unshare vc).run later).1.definitions,
        ∀ n, Mentions n t → c.scope.Accounted body.Mentions n) ∧
    c.scope.NamesApart body.Mentions := by
  rcases Condition.exists_stock hth hs hsep hbody hfamily hok with ⟨X, N, _, hfits, hN, hvc⟩
  have haccounted := hvc.accounted hN
  refine ⟨keeps_versions_introduced c, fun n hn => haccounted.accounted hn, fun later hlater => ?_,
    Scope.namesApart hs hsep hbody hwords⟩
  -- Other conditions may be computed before the sharing is removed, which only uses up
  -- numbers: the stock that the condition is in goes with the later supply too.
  have hadvances : c.theory.Advances := hth ▸ Theory.advances_standard
  rcases Theory.builds_unshare_accounted hadvances (W := X.raise later.nextName) hvc.mem haccounted
    later (Stock.fits_raise hfits hlater).2 with ⟨_, _, _, hdefines, hterms⟩
  exact ⟨hdefines, fun t ht n hn => (hterms t ht).accounted hn⟩

/-- Forget a boolean, and assign a number whose name is also bound below. -/
def capturingBody : Body :=
  [.havoc ["b"], .assign "n" (.var "i"), .skip, .skip, .skip,
    .assert (.all [⟨"i", .int⟩]
      (.binary .implies (.var "b") (.binary .lt (.var "i") (.var "n"))))]

/-- Two ways lead to the assertion. -/
def capturingGraph : FlowGraph :=
  .ofEdges 6 (some 0) [(0, 1), (1, 2), (2, 3), (2, 4), (3, 5), (4, 5)]

/-- Conditions over a boolean and two numbers. -/
def capturingCondition : Condition :=
  { theory := .standard, scope := { globals := .ofList [("b", .bool), ("n", .int), ("i", .int)] } }

/-- A condition with all kinds of introduced names: a version, a variable for a shared
    part, and a renamed binder. -/
theorem wire_names_apart_capturing : ∃ vc supply,
    (capturingCondition.compute "r" capturingBody capturingGraph).runFresh.run {} =
      (.ok vc, supply) ∧
    (((Theory.standard.unshare vc).run supply).1.terms ++
      ((Theory.standard.unshare vc).run supply).1.definitions).map Term.text =
      ["(AND share$$1 share$$1)",
        "(IFF share$$1 (FORALL (term$$i$$q0) (IMPLIES b$$0 (< term$$i$$q0 term$$i))))"] ∧
    (∀ t ∈ ((Theory.standard.unshare vc).run supply).1.terms ++
      ((Theory.standard.unshare vc).run supply).1.definitions,
      ∀ n, Mentions n t → capturingCondition.scope.Accounted capturingBody.Mentions n) ∧
    capturingCondition.scope.NamesApart capturingBody.Mentions := by
  have hplain : capturingCondition.scope.PlainNames := Scope.plainNames_of_keys (by decide)
  have hkeys : ∀ x ∈ capturingCondition.scope.locals.keys ++ capturingCondition.scope.globals.keys,
      x ≠ "term" ∧ x ≠ "term$" := by decide
  have hwords : ∀ x n, capturingCondition.scope.WireOf capturingBody.Mentions x n →
      x ≠ "TRUE" ∧ x ≠ "FALSE" := by
    have hdeclared : ∀ x ∈ capturingCondition.scope.locals.keys ++
        capturingCondition.scope.globals.keys, x ≠ "TRUE" ∧ x ≠ "FALSE" := by decide
    have hmentioned : ∀ command ∈ capturingBody, ∀ e ∈ command.action.exprs, ∀ x ∈ e.names,
        x ≠ "TRUE" ∧ x ≠ "FALSE" := by decide
    rintro x n (⟨hx, _⟩ | ⟨hx, _⟩ | ⟨⟨command, hcommand, e, he, hx⟩, _⟩)
    · exact hdeclared x (Scope.mem_keys_of_varType? hx)
    · exact hdeclared x (Scope.mem_keys_of_varType? hx)
    · exact hmentioned command hcommand e he x hx
  have htexts : ((capturingCondition.compute "r" capturingBody capturingGraph).runFresh.run
      {}).1.toOption.map (fun vc =>
        (((Theory.standard.unshare vc).run ((capturingCondition.compute "r" capturingBody
            capturingGraph).runFresh.run {}).2).1.terms ++
          ((Theory.standard.unshare vc).run ((capturingCondition.compute "r" capturingBody
            capturingGraph).runFresh.run {}).2).1.definitions).map Term.text) =
      some ["(AND share$$1 share$$1)",
        "(IFF share$$1 (FORALL (term$$i$$q0) (IMPLIES b$$0 (< term$$i$$q0 term$$i))))"] := by
    decide +kernel
  rcases hrun : (capturingCondition.compute "r" capturingBody capturingGraph).runFresh.run {} with
    ⟨result, supply⟩
  rw [hrun] at htexts
  cases result with
  | error err => cases htexts
  | ok vc =>
    obtain ⟨_, _, hunshared, hnames⟩ := wire_names_apart rfl hplain
      (Scope.separated_of_keys hplain hkeys) (Scope.separatedFrom_of_keys hplain hkeys _) hwords
      rfl (congrArg Prod.fst hrun)
    rw [hrun] at hunshared
    exact ⟨vc, supply, rfl, Option.some.inj htexts,
      (hunshared supply ⟨rfl, le_rfl, le_rfl⟩).2, hnames⟩

/-- A version is spelled like a variable that has `$$` in its name, and so a condition
    that should not hold is a triviality. -/
example : ((Condition.compute
    { theory := .standard, scope := { globals := .ofList [("x", .bool), ("x$$0", .bool)] } } "r"
    [.havoc ["x"], .assume (.var "x"), .assert (.var "x$$0")]
    (.ofEdges 3 (some 0) [(0, 1), (1, 2)])).runFresh.run {}).1.toOption.map Term.text =
      some "(IMPLIES x$$0 x$$0)" := by
  decide +kernel

end Vouch
