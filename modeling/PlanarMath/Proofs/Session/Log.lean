import PlanarMath.Session

/-!
# What a log takes

A log takes a complaint if it can be worded and, where there is a trace, traced.  Of several complaints all are
entered and traced if the log takes each of them; otherwise those before the first that it does not take, and this
one is entered without a line if it is only the trace that does not take it.  The event of a complaint is stamped by
its place in the log, so which events complaints add depends on how many there were before.

    found     d₀ d₁ d₂ d₃     the log does not take d₂, which can be worded
    entries   … d₀ d₁ d₂      trace     …  line of d₀, line of d₁
-/

namespace PlanarMath

/-- What is written of a diagnostic has no integer that is too long if its numbers are short, the range's included. -/
theorem Trace.isShort_ofDiagnostic (stamp : Stamp) (d : Diagnostic) :
    (ofDiagnostic stamp d).isShort = d.toJson.isShort := by
  simp [ofDiagnostic, event, Json.isShort, Json.membersAreShort]

/-- A diagnostic that can be written can be worded. -/
theorem Diagnostic.isWordable_of_isShort {d : Diagnostic} (h : d.toJson.isShort) : d.complaint.isWordable := by
  obtain ⟨complaint, range⟩ := d
  cases complaint with
  | unexpected found => rfl
  | ambiguousExponent => rfl
  | tooDeep n | invalidNumber n =>
    simp only [toJson, Json.isShort, Json.membersAreShort, Complaint.details?, Json.ofOption, id, Bool.and_eq_true,
      Bool.true_and, Bool.and_true] at h
    exact h.2

namespace Log

/-- The events of complaints in a row, the first of which stands at a place of the log. -/
def eventsFrom (stamp : Nat → Trace.Stamp) (first : Nat) (ds : List Diagnostic) : List Json :=
  ds.mapIdx fun i d => Trace.ofDiagnostic (stamp (first + i)) d

theorem eventsFrom_cons (stamp : Nat → Trace.Stamp) (first : Nat) (d : Diagnostic) (ds : List Diagnostic) :
    eventsFrom stamp first (d :: ds) =
      [Trace.ofDiagnostic (stamp first) d] ++ eventsFrom stamp (first + 1) ds := by
  unfold eventsFrom
  rw [List.mapIdx_cons]
  simp only [Nat.add_zero, Nat.add_right_comm first, Nat.add_assoc]
  rfl

/-- Whether a log enters a complaint, and its trace, if there is one, takes the event. -/
def takes (log : Log) (d : Diagnostic) : Bool :=
  d.complaint.isWordable && log.trace?.all fun w => w.isOpen && d.toJson.isShort

/-- The complaints that are entered of several: all up to the first that is not taken, and this one as well if it can
be worded. -/
def entered (log : Log) : List Diagnostic → List Diagnostic
  | [] => []
  | d :: ds => if log.takes d then d :: log.entered ds else if d.complaint.isWordable then [d] else []

variable (stamp : Nat → Trace.Stamp) (log : Log)

theorem takes_of_untraced {log : Log} (h : log.trace? = none) (d : Diagnostic) :
    log.takes d = d.complaint.isWordable := by
  rw [takes, h, Option.all_none, Bool.and_true]

theorem takes_of_isOpen {log : Log} {w : Trace.Writer} (h : log.trace? = some w) (hw : w.isOpen) (d : Diagnostic) :
    log.takes d = d.toJson.isShort := by
  rw [takes, h, Option.all_some, hw, Bool.true_and, Bool.eq_iff_iff, Bool.and_eq_true]
  exact ⟨And.right, fun hshort => ⟨d.isWordable_of_isShort hshort, hshort⟩⟩

/-- A log whose trace, if there is one, is open. -/
def IsOpen (log : Log) : Prop := ∀ w, log.trace? = some w → w.isOpen

/-- What can be written is taken, unless the trace is closed. -/
theorem takes_of_isShort {log : Log} (h : log.IsOpen) {d : Diagnostic} (hd : d.toJson.isShort) : log.takes d := by
  cases hlog : log.trace? with
  | none => exact (takes_of_untraced hlog d).trans (d.isWordable_of_isShort hd)
  | some w => exact (takes_of_isOpen hlog (h w hlog) d).trans hd

theorem entered_of_takes {log : Log} {ds : List Diagnostic} (h : ∀ d ∈ ds, log.takes d) : log.entered ds = ds := by
  induction ds with
  | nil => rfl
  | cons d ds ih =>
    obtain ⟨hd, hds⟩ := List.forall_mem_cons.1 h
    rw [entered, if_pos hd, ih hds]

theorem entered_congr {log log' : Log} (h : log'.takes = log.takes) (ds : List Diagnostic) :
    log'.entered ds = log.entered ds := by
  induction ds with
  | nil => rfl
  | cons d ds ih => rw [entered, entered, h, ih]

/-- The log after a complaint was entered, and traced if there is a trace. -/
def after (d : Diagnostic) : Log where
  entries := log.entries ++ [d]
  trace? := log.trace?.map fun w =>
    { w with content := Trace.extend w.content [Trace.ofDiagnostic (stamp log.entries.length) d] }

theorem takes_after (d : Diagnostic) : (log.after stamp d).takes = log.takes := by
  funext d'
  unfold takes after
  cases log.trace? <;> rfl

variable {log} in
theorem report_of_takes {d : Diagnostic} (h : log.takes d) : log.report stamp d = (log.after stamp d, .ok ()) := by
  obtain ⟨hword, htrace⟩ := Bool.and_eq_true_iff.1 h
  unfold report after
  rw [if_pos hword]
  cases hlog : log.trace? with
  | none => rfl
  | some w =>
    rw [hlog, Option.all_some, Bool.and_eq_true] at htrace
    simp only [Trace.Writer.append_eq, Trace.isShort_ofDiagnostic, htrace.1, htrace.2, if_true, Option.map_some]

variable {log} in
theorem report_of_not_takes {d : Diagnostic} (h : log.takes d = false) : ∃ f, log.report stamp d =
    ({ log with entries := log.entries ++ if d.complaint.isWordable then [d] else [] }, .error f) := by
  unfold report
  by_cases hword : d.complaint.isWordable
  · rw [takes, hword, Bool.true_and] at h
    rw [if_pos hword, if_pos hword]
    cases hlog : log.trace? with
    | none =>
      rw [hlog, Option.all_none] at h
      cases h
    | some w =>
      rw [hlog, Option.all_some] at h
      simp only [Trace.Writer.append_eq, Trace.isShort_ofDiagnostic]
      by_cases hshort : d.toJson.isShort
      · rw [hshort, Bool.and_true] at h
        refine ⟨.closedTrace, ?_⟩
        rw [if_pos hshort, if_neg (by rw [h]; exact Bool.false_ne_true)]
      · refine ⟨.tooManyDigits, ?_⟩
        rw [if_neg hshort]
  · exact ⟨.tooManyDigits, by rw [if_neg hword, if_neg hword, List.append_nil]⟩

/-- **What a log takes** of several complaints: their entries, the lines of those that are traced, and whether all went
well. -/
theorem reportAll_spec (ds : List Diagnostic) :
    (log.reportAll stamp ds).1.entries = log.entries ++ log.entered ds ∧
    (log.reportAll stamp ds).1.trace? = log.trace?.map (fun w =>
      { w with content := Trace.extend w.content (eventsFrom stamp log.entries.length (ds.takeWhile log.takes)) }) ∧
    ((log.reportAll stamp ds).2 = .ok () ↔ ∀ d ∈ ds, log.takes d) := by
  induction ds generalizing log with
  | nil =>
    have htrace : log.trace? = log.trace?.map (fun w => { w with content := Trace.extend w.content [] }) := by
      simp only [Trace.extend_nil]
      exact Option.map_id'.symm
    exact ⟨(List.append_nil _).symm, htrace, by simp [reportAll]⟩
  | cons d ds ih =>
    cases hd : log.takes d with
    | true =>
      obtain ⟨hentries, htrace, hok⟩ := ih (log.after stamp d)
      rw [takes_after] at htrace hok
      rw [reportAll, report_of_takes stamp hd]
      refine ⟨?_, ?_, ?_⟩
      · rw [hentries, entered_congr (takes_after stamp log d) ds, entered, if_pos hd, after, List.append_assoc,
          List.singleton_append]
      · have hlength : (log.after stamp d).entries.length = log.entries.length + 1 := List.length_append
        rw [htrace, hlength, List.takeWhile_cons_of_pos hd, eventsFrom_cons, after, Option.map_map]
        simp only [Function.comp_def, Trace.extend_append]
      · rw [hok, List.forall_mem_cons]
        exact ⟨fun h => ⟨hd, h⟩, And.right⟩
    | false =>
      obtain ⟨f, hreport⟩ := report_of_not_takes stamp hd
      rw [reportAll, hreport]
      refine ⟨?_, ?_, ?_⟩
      · rw [entered, hd]
        rfl
      · rw [List.takeWhile_cons_of_neg (by rw [hd]; exact Bool.false_ne_true)]
        simp only [eventsFrom, List.mapIdx_nil, Trace.extend_nil]
        exact Option.map_id'.symm
      · refine iff_of_false nofun fun h => ?_
        rw [h d List.mem_cons_self] at hd
        cases hd

end Log

namespace Session

/-- What an operation adds to the log, and what comes of it: its result if the log takes all that was found. -/
structure Enters {α : Type} (s : Session) (found : List Diagnostic) (result : Except Fault α)
    (r : Session × Except Fault α) : Prop where
  entries : r.1.log.entries = s.log.entries ++ s.log.entered found
  taken : (∀ d ∈ found, s.log.takes d) → r.2 = result
  refused : (∃ d ∈ found, s.log.takes d = false) → ∃ f, r.2 = .error f

theorem log_record {α : Type} (s : Session) (r : Report α) :
    (s.record r).1.log = (s.log.reportAll s.stamp r.found).1 := by
  unfold record
  split
  · next h => rw [h]
  · next h => rw [h]

theorem enters_record {α : Type} (s : Session) (r : Report α) : s.Enters r.found r.result (s.record r) := by
  obtain ⟨hentries, -, hok⟩ := s.log.reportAll_spec s.stamp r.found
  refine ⟨by rw [log_record, hentries], fun hall => ?_, fun ⟨d, hd, hnot⟩ => ?_⟩
  · unfold record
    split
    · next h =>
      rw [h] at hok
      cases hok.2 hall
    · rfl
  · unfold record
    split
    · exact ⟨_, rfl⟩
    · next h =>
      rw [h] at hok
      rw [hok.1 rfl d hd] at hnot
      cases hnot

/-- An operation that is not stopped has the result of its report. -/
theorem result_of_record {α : Type} {s : Session} {r : Report α} {a : α} (h : (s.record r).2 = .ok a) :
    r.result = .ok a := by
  unfold record at h
  split at h
  · cases h
  · exact h

/-- An operation with a result of its own has it exactly if the log takes all that was found. -/
theorem Enters.isOk_iff {α : Type} {s : Session} {found : List Diagnostic} {a : α} {r : Session × Except Fault α}
    (h : s.Enters found (.ok a) r) : (∃ b, r.2 = .ok b) ↔ ∀ d ∈ found, s.log.takes d := by
  refine ⟨fun ⟨b, hb⟩ d hd => ?_, fun hall => ⟨a, h.taken hall⟩⟩
  cases hd' : s.log.takes d with
  | true => rfl
  | false =>
    obtain ⟨f, hf⟩ := h.refused ⟨d, hd, hd'⟩
    cases hf.symm.trans hb

/-- An operation whose first complaint cannot be worded leaves the session as it was. -/
theorem record_of_not_isWordable {α : Type} {s : Session} {r : Report α} {d : Diagnostic} {ds : List Diagnostic}
    (hr : r.found = d :: ds) (hd : d.complaint.isWordable = false) : s.record r = (s, .error .tooManyDigits) := by
  have hreport : s.log.reportAll s.stamp r.found = (s.log, .error .tooManyDigits) := by
    rw [hr, Log.reportAll, Log.report, hd]
    rfl
  rw [record, hreport]

/-- A call whose report is an expression. -/
theorem enters_call {s : Session} {c : Call} {r : Report Placed} {found : List Diagnostic} {e : Placed}
    (hc : c.report s.options = r.map fun e => .expression e.expr) (hr : r = ⟨found, .ok e⟩) :
    s.Enters found (.ok (.expression e.expr)) (s.call c) := by
  have hreport : c.report s.options = ⟨found, .ok (.expression e.expr)⟩ := by
    rw [hc, hr]
    rfl
  have henters := s.enters_record (c.report s.options)
  rw [hreport] at henters
  rwa [call, hreport]

end Session

end PlanarMath
