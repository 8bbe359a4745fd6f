import Vouch.Proofs.Term.Renaming

/-!
# How Binders Are Spelled

A binder that is renamed may get a name that another binder of the same
quantifier has. It goes well for binders spelled as the encoder spells them, value
names of variables, renamed at most once.

## Main definitions

* `Term.Tidy`: Binders are spelled like that.
* `Subst.Clear`: No renamed binder comes in.

## Theorems

* `Subst.Rebound.tidyBinders`: Then binders stay tidy.
-/

namespace Vouch

open List

namespace Term

/-- The binders of a quantifier are value names, or renamed ones, and no value
    name is there together with a renamed form of it. -/
structure TidyBinders (t : Term) : Prop where
  body : ∃ b, t.children.getLast? = some b
  named : ∀ v ∈ t.children.dropLast, ∃ n, v.name? = some n
  spelled : ∀ n ∈ t.boundNames, (∃ x, PlainName x ∧ n = valueName x) ∨ CapturedName n
  apart : ∀ x k, PlainName x → valueName x ∈ t.boundNames →
    renamedBinder (valueName x) k ∉ t.boundNames

/-- All quantifiers of the term have tidy binders. -/
inductive Tidy : Term → Prop where
  | intro {t : Term} : (∀ c ∈ t.children, Tidy c) → (t.op = .all → TidyBinders t) → Tidy t

variable {t : Term}

theorem Tidy.operand {c : Term} (h : Tidy t) (hc : c ∈ t.children) : Tidy c := by
  cases h with
  | intro hcs _ => exact hcs c hc

theorem Tidy.binders (h : Tidy t) (hop : t.op = .all) : TidyBinders t := by
  cases h with
  | intro _ hb => exact hb hop

theorem Tidy.of_operands (hop : t.op ≠ .all) (h : ∀ c ∈ t.children, Tidy c) : Tidy t :=
  .intro h fun hall => absurd hall hop

theorem Tidy.of_leaf (hop : t.op ≠ .all) (h : t.children = []) : Tidy t :=
  .of_operands hop (by simp [h])

end Term

namespace Subst

/-- The replacements are members of the stock that can be substituted in. -/
def Good (σ : Subst) (W : Stock) : Prop :=
  ∀ r ∈ σ.values, r ∈ W.terms ∧ r.Tidy

theorem Good.mono {σ : Subst} {W X : Stock} (h : σ.Good W) (hWX : W ≤ X) : σ.Good X :=
  fun r hr => ⟨hWX.1 (h r hr).1, (h r hr).2⟩

/-- No name that comes in is a renamed binder of the term. -/
def Clear (σ : Subst) (t : Term) : Prop :=
  ∀ n, σ.Incoming n → t.Mentions n → ¬ CapturedName n

theorem Clear.operand {σ : Subst} {t c : Term} (h : σ.Clear t) (hc : c ∈ t.children) : σ.Clear c :=
  fun n hn hm => h n hn (.operand hc hm)

end Subst

namespace Term

variable {σ : Subst}

theorem mentions_of_mem_boundNames {t : Term} {n : String} (hop : t.op = .all)
    (h : n ∈ t.boundNames) : Mentions n t := by
  rw [boundNames_of_op_all hop] at h
  rcases mem_filterMap.mp h with ⟨v, hv, hn⟩
  exact .operand (mem_of_mem_dropLast hv) (.var hn)

theorem plain_of_incoming {t : Term} {n : String} (hop : t.op = .all) (htidy : Tidy t)
    (hclear : σ.Clear t) (hn : n ∈ t.boundNames) (hin : σ.Incoming n) :
    ∃ x, PlainName x ∧ n = valueName x := by
  rcases (htidy.binders hop).spelled n hn with h | h
  · exact h
  · exact absurd h (hclear n hin (mentions_of_mem_boundNames hop hn))

end Term

namespace Subst.Rebound

open Term

variable {σ : Subst} {inc taken : List String} {outer inner : Subst} {t b r b' : Term}
  {vs us : List Term} (h : Rebound σ inc taken outer inner t b vs us r b')
include h

theorem clear (hclear : σ.Clear t) : inner.Clear b := by
  intro n hn hm
  have hin := (h.incoming_inner hn).resolve_right fun hnot => hnot hm
  exact hclear n hin (.operand (mem_of_getLast? h.body) hm)

theorem apart (htidy : Tidy t) (hclear : σ.Clear t) {n : String}
    (hn : n ∈ t.children.dropLast.filterMap name?) (hin : n ∈ inc) (k : Nat) :
    renamedBinder n k ∉ t.children.dropLast.filterMap name? := by
  rw [← boundNames_of_op_all h.op] at hn ⊢
  rcases plain_of_incoming h.op htidy hclear hn ((h.incoming n).mp hin) with ⟨x, hx, rfl⟩
  exact (htidy.binders h.op).apart x k hx hn

/-- A binder is renamed once at most, so new names are still told apart. -/
theorem tidyBinders (htidy : Tidy t) (hclear : σ.Clear t) : TidyBinders r := by
  have hbound := boundNames_of_op_all h.op
  -- Renaming starts from value names, so its results are renamed value names.
  have hcases : ∀ n ∈ r.boundNames, (n ∈ t.boundNames ∧ n ∉ inc) ∨
      ∃ x k, PlainName x ∧ valueName x ∈ inc ∧ n = renamedBinder (valueName x) k := by
    intro n hn
    rw [h.boundNames_result] at hn
    rcases h.renamed.names hn with ⟨hn, hnot⟩ | ⟨m, k, hm, hin, heq, _⟩
    · exact .inl ⟨hbound ▸ hn, hnot⟩
    · rcases plain_of_incoming h.op htidy hclear (hbound ▸ hm) ((h.incoming m).mp hin)
        with ⟨x, hx, hmx⟩
      exact .inr ⟨x, k, hx, hmx ▸ hin, hmx ▸ heq⟩
  refine ⟨⟨b', h.body_result⟩, fun u hu => ?_, fun n hn => ?_, fun x k hx hn hk => ?_⟩
  · rw [h.children, dropLast_concat] at hu
    rcases exists_of_forall₂_left h.heads hu with ⟨v, hv, huv⟩
    have hname := name?_eq_of_head huv
    rcases h.renamed.vars hv with hv | ⟨_, n, hn⟩
    · rcases (htidy.binders h.op).named _ hv with ⟨n, hn⟩
      exact ⟨n, hname.trans hn⟩
    · exact ⟨n, hname.trans hn⟩
  · rcases hcases n hn with ⟨hn, _⟩ | ⟨x, k, hx, _, heq⟩
    · exact (htidy.binders h.op).spelled n hn
    · exact .inr ⟨x, k, hx, heq⟩
  · rcases hcases _ hn with ⟨hn, hnot⟩ | ⟨y, j, _, _, heq⟩
    · rcases hcases _ hk with ⟨hk, _⟩ | ⟨y, j, _, hin, heq⟩
      · exact (htidy.binders h.op).apart x k hx hn hk
      · rw [(renamedBinder_inj heq).1] at hnot
        exact hnot hin
    · rw [← valueName_renamedBinder] at heq
      exact plainName_ne_renamedBinder hx (valueName_inj heq)

end Subst.Rebound

end Vouch
