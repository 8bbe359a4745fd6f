import Vouch.Proofs.Prover.Erasure
import Vouch.Proofs.Term.Text
import Vouch.Prover.Wire

/-!
# The Lines a Program Is Sent

To say what a prover writes, the lines that its program is sent are noted beside
the state of the outside.

## Main definitions

* `Host.recording`: The host that notes lines.

## Theorems

* `Child.log_of_send`: A text that is one line is sent as that line.
* `Child.log_of_query`: A query that succeeds was heard.
* `Prover.covers_recording`: The notes change nothing.
-/

namespace Vouch

open ProverM

variable {ω ω' κ α γ : Type}

theorem Text.lines_of_not_mem {s : String} (h : '\n' ∉ s.toList) : Text.lines s = [s] := by
  have hchars : ∀ c ∈ s.toList, (c == '\n') = false := by
    intro c hc
    rw [beq_eq_false_iff_ne]
    exact fun heq => h (heq ▸ hc)
  have hsplit : s.toList.splitOn '\n' = [s.toList] := List.splitOnP_eq_singleton hchars
  rw [Text.lines, hsplit, List.map_singleton, String.ofList_toList]

/-- Do something outside and note lines beside. -/
def noting (m : StateM ω α) (lines : List String) : StateM (ω × List String) α := fun o =>
  ((m.run o.1).1, (m.run o.1).2, o.2 ++ lines)

/-- The host with the lines that programs are sent written down beside. -/
def Host.recording (host : Host ω κ) : Host (ω × List String) κ where
  isThere path := noting (host.isThere path) []
  spawn c := noting (host.spawn c) []
  hear line program := noting (host.hear line program) [line]
  accepts text program := noting (host.accepts text program) (Text.lines text)

theorem erases_noting_lines (m : StateM ω α) (lines : List String) :
    Erases Prod.fst (noting m lines) m :=
  fun _ => rfl

theorem erases_act {m : StateM (ω × List String) α} {m' : StateM ω α}
    (h : Erases Prod.fst m m') : Erases World.plain (World.act m) (World.act m') := by
  intro w
  have hrun : (World.act m').run w.plain = (fun done : α × ω =>
      (done.1, ({ supply := w.supply, outside := done.2 } : World ω))) (m'.run w.outside.1) := rfl
  rw [hrun, h w.outside]
  rfl

/-- Computations with a program in any state. -/
def ChildM.Erases (g : ω' → ω) (m : ChildM ω' κ α) (m' : ChildM ω κ α) : Prop :=
  ∀ p, Vouch.Erases g (m.run.run p) (m'.run.run p)

theorem ChildM.Erases.bind {g : ω' → ω} {m : ChildM ω' κ α} {m' : ChildM ω κ α}
    {k : α → ChildM ω' κ γ} {k' : α → ChildM ω κ γ} (hm : Erases g m m')
    (hk : ∀ a, Erases g (k a) (k' a)) : Erases g (m >>= k) (m' >>= k') := by
  intro p
  rw [ExceptT.run_bind, ExceptT.run_bind, StateT.run_bind, StateT.run_bind]
  refine (hm p).bind fun done => ?_
  cases done.1 with
  | ok a => exact hk a done.2
  | error e => exact erases_pure g _

namespace Child

variable {p : Child κ}

theorem run_sendLine_of_running (host : Host ω κ) (line : String) (h : p.life = .running) :
    (sendLine host line).run p =
      host.hear line p.program >>= fun out => pure ((), p.observe out.1 out.2) := by
  unfold sendLine
  simp only [StateT.run_bind, StateT.run_get, pure_bind, h, if_true]
  rfl

theorem run_sendLine_of_gone (host : Host ω κ) (line : String) (h : p.life ≠ .running) :
    (sendLine host line).run p = pure ((), p) := by
  unfold sendLine
  simp only [StateT.run_bind, StateT.run_get, pure_bind, h, if_false]
  rfl

theorem run_write_of_running (host : Host ω κ) (text : String) (h : p.life = .running) :
    (write host text).run.run p =
      ((Text.lines text).forM (sendLine host)).run p >>= fun done => pure (.ok (), done.2) := by
  unfold write
  rw [run_getThe_bind]
  simp only [h]
  rfl

/-- A text can be written to a program that ended, as far as the outside lets it. -/
theorem run_write_of_ended (host : Host ω κ) (text : String) {status : Int}
    (h : p.life = .ended status) :
    (write host text).run.run p = host.accepts text p.program >>= fun accepted =>
      pure (if accepted then .ok () else .error brokenPipe, p) := by
  unfold write
  rw [run_getThe_bind]
  simp only [h]
  refine StateT.ext fun o => ?_
  rw [StateT.run_bind]
  have hlift : (liftM (host.accepts text p.program) : ChildM ω κ Bool).run.run p =
      host.accepts text p.program >>= fun accepted => pure (.ok accepted, p) := rfl
  rw [ExceptT.run_bind, StateT.run_bind, hlift, StateT.run_bind, StateT.run_bind]
  rcases (host.accepts text p.program).run o with ⟨accepted, o'⟩
  cases accepted <;> rfl

theorem run_write_of_stopped (host : Host ω κ) (text : String) {status : Option Int}
    (h : p.life = .stopped status) :
    (write host text).run.run p = pure (.error brokenPipe, p) := by
  unfold write
  rw [run_getThe_bind]
  simp only [h]
  rfl

theorem exists_run_checkAlive (p : Child κ) : ∃ r, ∀ ω : Type,
    (checkAlive : ChildM ω κ Unit).run.run p = pure (r, p) := by
  by_cases h : p.life = .running
  · refine ⟨.ok (), fun ω => ?_⟩
    unfold checkAlive
    rw [run_getThe_bind]
    simp only [h, ne_eq, not_true, if_false]
    rfl
  · refine ⟨.error (.exited p.life.status?), fun ω => ?_⟩
    unfold checkAlive
    rw [run_getThe_bind]
    simp only [h, ne_eq, not_false_iff, if_true]
    rfl

/-- Read the answer to a query up to the verdict. -/
def hearAnswer : ChildM ω κ Bool := do
  let p ← getThe (Child κ)
  let (answer, unread) := Answer.read p.unread
  set { p with unread, queries := p.queries + 1 }
  match answer with
  | some verdict => verdict
  | none => throw (.exited p.life.status?)

theorem query_eq (host : Host ω κ) (formula : String) :
    query host formula = write host formula >>= fun _ => hearAnswer := rfl

theorem exists_run_hearAnswer (p : Child κ) : ∃ r q, ∀ ω : Type,
    (hearAnswer : ChildM ω κ Bool).run.run p = pure (r, q) := by
  rcases h : Answer.read p.unread with ⟨answer, unread⟩
  cases answer with
  | none =>
    refine ⟨.error (.exited p.life.status?), { p with unread, queries := p.queries + 1 }, ?_⟩
    intro ω
    unfold hearAnswer
    rw [run_getThe_bind]
    simp only [h]
    rfl
  | some verdict =>
    refine ⟨verdict, { p with unread, queries := p.queries + 1 }, ?_⟩
    intro ω
    unfold hearAnswer
    rw [run_getThe_bind]
    simp only [h]
    cases verdict <;> rfl

section Erasing

variable (host : Host ω κ)

theorem erases_start (c : ProverCommand) :
    Erases Prod.fst (start host.recording c) (start host c) := by
  unfold start
  refine (erases_noting_lines _ []).bind fun isThere => ?_
  cases c.check isThere with
  | error e => exact erases_pure _ _
  | ok u =>
    refine (erases_noting_lines _ []).bind fun spawned => ?_
    cases spawned <;> exact erases_pure _ _

theorem erases_sendLine (line : String) (p : Child κ) :
    Erases Prod.fst ((sendLine host.recording line).run p) ((sendLine host line).run p) := by
  by_cases h : p.life = .running
  · rw [run_sendLine_of_running _ _ h, run_sendLine_of_running _ _ h]
    exact (erases_noting_lines _ _).bind fun out => erases_pure _ _
  · rw [run_sendLine_of_gone _ _ h, run_sendLine_of_gone _ _ h]
    exact erases_pure _ _

theorem erases_sendLines : ∀ (lines : List String) (p : Child κ),
    Erases Prod.fst ((lines.forM (sendLine host.recording)).run p)
      ((lines.forM (sendLine host)).run p)
  | [], _ => erases_pure _ _
  | line :: lines, p =>
    (erases_sendLine host line p).bind fun done => erases_sendLines lines done.2

theorem erases_write (text : String) :
    ChildM.Erases Prod.fst (write host.recording text) (write host text) := by
  intro p
  cases h : p.life with
  | running =>
    rw [run_write_of_running _ _ h, run_write_of_running _ _ h]
    exact (erases_sendLines host _ p).bind fun done => erases_pure _ _
  | ended status =>
    rw [run_write_of_ended _ _ h, run_write_of_ended _ _ h]
    exact (erases_noting_lines _ _).bind fun accepted => erases_pure _ _
  | stopped status =>
    rw [run_write_of_stopped _ _ h, run_write_of_stopped _ _ h]
    exact erases_pure _ _

theorem erases_send (command : String) :
    ChildM.Erases Prod.fst (send host.recording command) (send host command) := by
  refine (erases_write host command).bind fun _ p => ?_
  rcases exists_run_checkAlive p with ⟨r, hrun⟩
  rw [hrun, hrun]
  exact erases_pure _ _

theorem erases_query (formula : String) :
    ChildM.Erases Prod.fst (query host.recording formula) (query host formula) := by
  refine (erases_write host formula).bind fun _ p => ?_
  change Erases Prod.fst (hearAnswer.run.run p) (hearAnswer.run.run p)
  rcases exists_run_hearAnswer p with ⟨r, q, hrun⟩
  rw [hrun, hrun]
  exact erases_pure _ _

end Erasing

section Logging

variable {host : Host ω κ} {text : String} {p p' : Child κ} {o o' : ω × List String}

/-- Whether or not a line can be written, what is noted is at most this line. -/
theorem exists_run_write (host : Host ω κ) (htext : '\n' ∉ text.toList)
    (p : Child κ) (o : ω × List String) :
    ∃ r q outside lines, ((write host.recording text).run.run p).run o =
      (pure ((r, q), (outside, o.2 ++ lines)) : Id _) ∧ (r = .ok () → lines = [text]) := by
  cases hlife : p.life with
  | running =>
    -- Sending several lines comes down to sending one.
    rw [run_write_of_running _ _ hlife, Text.lines_of_not_mem htext]
    have hline : ([text].forM (sendLine host.recording)).run p =
        (sendLine host.recording text).run p >>= fun done => pure ((), done.2) := rfl
    rw [hline, run_sendLine_of_running _ _ hlife]
    exact ⟨_, _, _, _, rfl, fun _ => rfl⟩
  | ended status =>
    rw [run_write_of_ended _ _ hlife]
    exact ⟨_, _, _, _, rfl, fun _ => Text.lines_of_not_mem htext⟩
  | stopped status =>
    rw [run_write_of_stopped _ _ hlife]
    refine ⟨.error brokenPipe, p, o.1, [], ?_, fun h => by cases h⟩
    rw [List.append_nil]
    rfl

theorem log_of_write_bind {k : ChildM (ω × List String) κ α}
    (hk : ∀ q : Child κ, ∃ r q', k.run.run q = pure (r, q')) (htext : '\n' ∉ text.toList) {a : α}
    (h : ((write host.recording text >>= fun _ => k).run.run p).run o = ((.ok a, p'), o')) :
    o'.2 = o.2 ++ [text] := by
  rw [ExceptT.run_bind, StateT.run_bind] at h
  rcases exists_run_write host htext p o with ⟨written, q, outside, lines, hwrite, hlines⟩
  rw [StateT.run_bind, hwrite, pure_bind] at h
  cases written with
  | error e => cases h
  | ok u =>
    rcases hk q with ⟨r, q', hq⟩
    rw [hlines rfl] at h
    change (k.run.run q).run (outside, o.2 ++ [text]) = _ at h
    rw [hq] at h
    exact (congrArg (fun done => done.2.2) h).symm

theorem log_of_send (htext : '\n' ∉ text.toList)
    (h : ((send host.recording text).run.run p).run o = ((.ok (), p'), o')) :
    o'.2 = o.2 ++ [text] := by
  refine log_of_write_bind (fun q => ?_) htext h
  rcases exists_run_checkAlive q with ⟨r, hr⟩
  exact ⟨r, q, hr _⟩

/-- A query that is answered was sent as one line. -/
theorem log_of_query (htext : '\n' ∉ text.toList) {verdict : Bool}
    (h : ((query host.recording text).run.run p).run o = ((.ok verdict, p'), o')) :
    o'.2 = o.2 ++ [text] := by
  rw [query_eq] at h
  refine log_of_write_bind (fun q => ?_) htext h
  rcases exists_run_hearAnswer q with ⟨r, q', hr⟩
  exact ⟨r, q', hr _⟩

end Logging

end Child

namespace Wire

variable {m : ChildM ω κ α} {n : Fresh α} {b b' : Child κ} {w w' : World ω}
  {r : Except ProverError α}

theorem Yields.of_talk (h : Yields (talk m) b w r b' w') :
    (m.run.run b).run w.outside = ((r, b'), w'.outside) ∧ w'.supply = w.supply := by
  have hrun : (World.act (m.run.run b)).run w = ((r, b'), w') := h
  have hresult : ((m.run.run b).run w.outside).1 = (r, b') := congrArg Prod.fst hrun
  have houtside : ((m.run.run b).run w.outside).2 = w'.outside :=
    congrArg (fun done => done.2.outside) hrun
  exact ⟨Prod.ext hresult houtside, (congrArg (fun done => done.2.supply) hrun).symm⟩

theorem erases_build (n : Fresh α) :
    ProverM.Erases Prod.fst (build n : ProverM (ω × List String) (Child κ) α) (build n) :=
  fun _ _ => rfl

theorem erases_talk {m : ChildM (ω × List String) κ α} {m' : ChildM ω κ α}
    (h : ChildM.Erases Prod.fst m m') : ProverM.Erases Prod.fst (talk m) (talk m') :=
  fun b => erases_act (h b)

end Wire

namespace Prover

open Wire

theorem covers_recording (th : Theory) (host : Host ω κ) (c : ProverCommand) :
    (wire th host.recording c).Covers Prod.fst (wire th host c) where
  start := erases_act (Child.erases_start host c)
  -- Building does not touch the outside at all, so there is nothing to note.
  assume t := by
    refine (erases_build _).bind fun u => (erases_build _).bind fun f => ?_
    exact erases_talk (Child.erases_send host _)
  retract := erases_talk (Child.erases_send host _)
  isValid t := by
    refine (erases_build _).bind fun u => ?_
    split
    · exact erases_talk (Child.erases_query host _)
    · refine (erases_build _).bind fun ds => ?_
      refine (erases_talk (Child.erases_send host _)).bind fun _ => ?_
      refine (erases_talk (Child.erases_query host _)).bind fun _ => ?_
      refine (erases_talk (Child.erases_send host _)).bind fun _ => ?_
      exact fun _ _ => rfl
  terminate _ _ := rfl
  isStub _ := rfl

end Prover

end Vouch
