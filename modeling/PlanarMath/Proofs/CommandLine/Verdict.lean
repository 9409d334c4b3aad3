import Mathlib
import PlanarMath.CommandLine.Run
import PlanarMath.Proofs.Reading.Bounded
import PlanarMath.Proofs.Reading.Complaints
import PlanarMath.Proofs.Reading.Total

/-!
# The verdict on a layout

A layout is read without complaint exactly when no error is left in its expression, and more: where there
are errors and complaints, they tell of the same regions.  The status of a result and the code of a run are
read off the complaints, so they tell whether the expression is whole.

    status = "ok"   iff   code = 0   iff   no error in the expression
-/

namespace PlanarMath

/-- An expression with an error in it. -/
def Expr.hasError (e : Expr) : Prop := ∃ r?, Expr.error r? ∈ e.walk

theorem Expr.errors_eq_nil_iff {e : Expr} : e.errors = [] ↔ ¬e.hasError := by
  rw [List.eq_nil_iff_forall_not_mem, hasError, not_exists]
  exact forall_congr' fun r? => not_congr mem_errors

/-- The status of a result that comes of a reading. -/
theorem Result.isOk_iff {e : Expr} {found : List Diagnostic} (h : Matched e.errors found) :
    (Result.mk e found).isOk ↔ ¬e.hasError := by
  unfold isOk
  rw [List.isEmpty_iff, ← Expr.errors_eq_nil_iff]
  exact h.eq_nil_iff

theorem Result.status_eq_ok {r : Result} : r.status = "ok" ↔ r.isOk := by
  unfold status
  split
  · next h => simp [h]
  · next h => simp [h]

/-- A result comes of a reading that found what it lists. -/
theorem Result.ofReport_eq_ok {report : Report Placed} {result : Result}
    (h : (Result.ofReport report).result = .ok result) :
    ∃ e, report = ⟨report.found, .ok e⟩ ∧ result = ⟨e.expr, report.found⟩ := by
  obtain ⟨found, r⟩ := report
  cases r with
  | error f => cases h
  | ok e =>
    cases h
    exact ⟨e, rfl, rfl⟩

namespace CommandLine

theorem code_finished {format : Format} {result : Result} :
    (Outcome.finished format result).code = 0 ↔ result.isOk := by
  unfold Outcome.code
  simp

/-- A run that gets to its report has read some layout. -/
theorem run_finished {stamp : Nat → Trace.Stamp} {args : List String} {files files' : Files}
    {format : Format} {result : Result}
    (h : run stamp args files = (.finished format result, files')) :
    ∃ o row, (Result.ofReport (readLayout o row)).result = .ok result := by
  unfold run at h
  split at h
  · cases h
  · unfold runWith at h
    -- whatever stops a run before its report makes it a failure
    split at h
    · cases h
    · split at h
      · cases h
      · split at h
        · cases h
        · split at h
          · cases h
          · have hend := congrArg Prod.fst h
            simp only [readAndReport] at hend
            split at hend
            · cases hend
            · next hr =>
              cases hend
              exact ⟨_, _, Session.result_of_record hr⟩

end CommandLine

open CommandLine Layout in
/-- **Errors and complaints.**  A session reads a layout, whatever is in its log, unless the log does not take a
complaint; it takes them all if the limit and the indices of the layout are not too long to be written, and its trace,
if there is one, is open.  It then gives an expression and adds complaints, and of these each error has one inside it
and each complaint lies inside an error.  The status of the result is `ok`, and the code of a run is zero, exactly when
there is no error. -/
theorem errors_match_complaints :
    (∀ (s : Session) (row : Row), s.options.functions.HasNames →
      ((∃ e, (s.call (.layout row)).2 = .ok (.expression e)) ↔
        ∀ d ∈ (readLayout s.options row).found, s.log.takes d) ∧
      (s.log.IsOpen → (∀ n, s.options.limit? = some n → Literal.isShort n) → Literal.isShort (Row.width row) →
        ∀ d ∈ (readLayout s.options row).found, s.log.takes d) ∧
      ∀ answer, (s.call (.layout row)).2 = .ok answer → ∃ e added, answer = .expression e ∧
        (s.call (.layout row)).1.log.entries = s.log.entries ++ added ∧
        (∀ r?, .error r? ∈ e.walk → ∃ r, r? = some r ∧ ∃ d ∈ added, r.contains d.range) ∧
        (∀ d ∈ added, ∃ r, .error (some r) ∈ e.walk ∧ r.contains d.range) ∧
        (Result.ofReport (readLayout s.options row)).result = .ok ⟨e, added⟩ ∧
        ((Result.mk e added).status = "ok" ↔ ¬e.hasError)) ∧
    ∀ stamp args files format result files',
      run stamp args files = (.finished format result, files') →
      ((Outcome.finished format result).code = 0 ↔ ¬result.expr.hasError) := by
  constructor
  · intro s row ho
    obtain ⟨e, he⟩ := readLayout_isOk ho row
    have hreport : readLayout s.options row = ⟨(readLayout s.options row).found, .ok e⟩ := by
      rw [← he]
    have hm := readLayout_matched hreport
    have henters := Session.enters_call (s := s) (c := .layout row) rfl hreport
    refine ⟨⟨fun ⟨e', he'⟩ => henters.isOk_iff.1 ⟨_, he'⟩, fun hall => ⟨_, henters.taken hall⟩⟩,
      Session.takes_of_mem_found, ?_⟩
    intro answer hanswer
    have hall := henters.isOk_iff.1 ⟨_, hanswer⟩
    refine ⟨e.expr, (readLayout s.options row).found, ?_, ?_, ?_, ?_, ?_, ?_⟩
    · exact Except.ok.inj (hanswer.symm.trans (henters.taken hall))
    · rw [henters.entries, Log.entered_of_takes hall]
    · intro r? hr
      exact hm.complaint r? (Expr.mem_errors.2 hr)
    · intro d hd
      obtain ⟨r, hr, hc⟩ := hm.error d hd
      exact ⟨r, Expr.mem_errors.1 hr, hc⟩
    · rw [hreport]
      rfl
    · rw [Result.status_eq_ok, Result.isOk_iff hm]
  · intro stamp args files format result files' h
    obtain ⟨o, row, hr⟩ := run_finished h
    obtain ⟨e, hreport, rfl⟩ := Result.ofReport_eq_ok hr
    rw [code_finished, Result.isOk_iff (readLayout_matched hreport)]

open CommandLine Layout in
/-- A sign alone is no expression: one error, one complaint, and a code other than zero. -/
theorem errors_match_complaints_of_lone_sign :
    let stamp : Nat → Trace.Stamp := fun _ => ⟨"", ""⟩
    let s : Session := ⟨{}, {}, stamp⟩
    let result : Result := ⟨.error (some (.ofWidth 0 1)), [⟨.unexpected (.codePoint "*"), .ofWidth 0 1⟩]⟩
    s.options.functions.HasNames ∧ s.log.IsOpen ∧ (∀ n, s.options.limit? = some n → Literal.isShort n) ∧
      Literal.isShort (Row.width [.glyph '*']) ∧
      (∀ d ∈ (readLayout s.options [.glyph '*']).found, s.log.takes d) ∧
      (s.call (.layout [.glyph '*'])).2 = .ok (.expression result.expr) ∧
      (∃ e added, Answer.expression result.expr = .expression e ∧
        (s.call (.layout [.glyph '*'])).1.log.entries = s.log.entries ++ added ∧
        ((Result.mk e added).status = "ok" ↔ ¬e.hasError)) ∧
      run stamp ["--text", "*"] [] = (.finished .json result, []) ∧
      ((Outcome.finished .json result).code = 0 ↔ ¬result.expr.hasError) := by
  intro stamp s result
  have hnames : s.options.functions.HasNames := FunctionTable.hasNames_standard
  have hopen : s.log.IsOpen := nofun
  have hlimit : ∀ n, s.options.limit? = some n → Literal.isShort n := nofun
  have hwidth : Literal.isShort (Row.width [.glyph '*']) := by decide +kernel
  have hcall : (s.call (.layout [.glyph '*'])).2 = .ok (.expression result.expr) := by cbv
  have hrun : run stamp ["--text", "*"] [] = (.finished .json result, []) := by cbv
  obtain ⟨-, htakes, hanswers⟩ := errors_match_complaints.1 s [.glyph '*'] hnames
  obtain ⟨e, added, he, hlog, -, -, -, hstatus⟩ := hanswers _ hcall
  exact ⟨hnames, hopen, hlimit, hwidth, htakes hopen hlimit hwidth, hcall, ⟨e, added, he, hlog, hstatus⟩, hrun,
    errors_match_complaints.2 _ _ _ _ _ _ hrun⟩

end PlanarMath
