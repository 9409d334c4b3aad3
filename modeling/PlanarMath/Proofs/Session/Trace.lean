import PlanarMath.Proofs.Session.Log
import PlanarMath.Proofs.Trace.Lines
import PlanarMath.Transcriber

/-!
# The log and its trace

A log may be used by any transcribers in turn, and for complaints that are reported to it directly.  Whatever it is
used for, also when a reading is stopped by a fault, its entries stay and what it takes of what was found is added
behind them; and an open trace gets one line for each new entry without a number that is too long, in their order,
that tells its message, code, range and details.

    log      d₀ d₁ | what a use found          trace    line of d₀, line of d₁ | one line for each
-/

namespace PlanarMath

/-- Something that a log is used for: a call that finds something, or a complaint that is reported. -/
inductive Use where
  | call (t : Transcriber) (c : Call)
  | report (d : Diagnostic)

/-- The complaints that a use has for the log. -/
def Use.found : Use → List Diagnostic
  | call t c => (t.call c).1.found
  | report d => [d]

/-- The record of a diagnostic is told by its text unless a number of it is too long. -/
theorem Diagnostic.isTold_toJson {d : Diagnostic} (h : d.toJson.isShort) : d.toJson.IsTold := by
  have hkeys : ["code", "message", "range", "details"].Nodup := by decide
  simp only [toJson, Range.toJson, Json.isShort, Json.membersAreShort, Bool.true_and, Bool.and_true,
    Bool.and_eq_true] at h
  obtain ⟨⟨hstart, hstop⟩, hnumber⟩ := h
  have hrange : d.range.toJson.IsTold := by
    have hends : ["start", "end"].Nodup := by decide
    exact ⟨hends, hstart, hstop, trivial⟩
  have hdetails : (Json.ofOption id d.complaint.details?).IsTold := by
    obtain ⟨complaint, range⟩ := d
    cases complaint with
    | unexpected found =>
      have hkinds : ["kind", "code_point"].Nodup := by decide
      have hglyph : (Json.ofOption Json.text found.codePoint?).IsTold := by
        cases found.codePoint? <;> exact trivial
      exact ⟨hkinds, trivial, hglyph, trivial⟩
    | ambiguousExponent => exact trivial
    | tooDeep limit | invalidNumber length =>
      exact ⟨List.nodup_singleton _, (Bool.and_eq_true_iff.1 hnumber).1, trivial⟩
  exact ⟨hkeys, trivial, trivial, hrange, hdetails, trivial⟩

namespace Trace

/-- An event that tells all about a diagnostic, and is told by its text unless a number of it is too long. -/
structure Reports (d : Diagnostic) (e : Json) : Prop where
  kind : e.get? "kind" = some (.text "diagnostic")
  message : e.get? "message" = some (.text d.complaint.message)
  code : (e.get? "data").bind (·.get? "code") = some (.text d.complaint.code)
  data_message : (e.get? "data").bind (·.get? "message") = some (.text d.complaint.message)
  range : (e.get? "data").bind (·.get? "range") = some d.range.toJson
  details : (e.get? "data").bind (·.get? "details") = some (.ofOption id d.complaint.details?)
  isTold : d.toJson.isShort → e.IsTold

theorem reports_ofDiagnostic (stamp : Stamp) (d : Diagnostic) : Reports d (ofDiagnostic stamp d) where
  kind := rfl
  message := rfl
  code := rfl
  data_message := rfl
  range := rfl
  details := rfl
  isTold h := by
    have hkeys : ["event_id", "ts", "kind", "message", "data"].Nodup := by decide
    exact ⟨hkeys, trivial, trivial, trivial, trivial, Diagnostic.isTold_toJson h, trivial⟩

/-- What becomes of a file when it is used as a trace several times: it grows by one line for each event without an
integer that is too long, also when the lines are counted from its start, and takes nothing more once it is closed. -/
structure Kept (content : String) (uses : List (List Json)) (ws : List (Writer × List (Except Fault Unit))) :
    Prop where
  answers : ws.map (·.2) = uses.map (·.map answer)
  closed : ∀ w ∈ ws, w.1.IsClosed
  grown : ∀ (n : Nat) (h : n < uses.length), ∃ text,
    contentAfter content (ws.take (n + 1)) = contentAfter content (ws.take n) ++ text ∧
    IsLines text (uses[n].filter Json.isShort)
  lines : ∀ n, ∃ text,
    contentAfter content (ws.take n) = content ++ text ∧ IsLines text ((uses.take n).flatten.filter Json.isShort)
  split : IsEnded content → ∀ n, (contentAfter content (ws.take n)).toList.splitOn '\n' =
    (content.toList.splitOn '\n').dropLast ++
      ((uses.take n).flatten.filter Json.isShort).map (fun e => (Json.toText Json.compact e).toList) ++ [[]]

theorem kept_sessions (content : String) (uses : List (List Json)) : Kept content uses (sessions content uses) where
  answers := map_snd_sessions content uses
  closed _ := isClosed_of_mem_sessions
  grown n hn := by
    rw [contentAfter_sessions, contentAfter_sessions, List.take_succ_eq_append_getElem hn, List.flatten_append,
      List.flatten_singleton, List.filter_append, extend_append]
    exact extend_isLines _ _
  lines n := by
    rw [contentAfter_sessions]
    exact extend_isLines _ _
  split hcontent n := by
    rw [contentAfter_sessions]
    exact (isLines_join _).split_append hcontent

end Trace

namespace Log

theorem forall₂_eventsFrom (stamp : Nat → Trace.Stamp) (first : Nat) (ds : List Diagnostic) :
    List.Forall₂ Trace.Reports ds (eventsFrom stamp first ds) := by
  induction ds generalizing first with
  | nil => exact .nil
  | cons d ds ih =>
    rw [eventsFrom_cons]
    exact .cons (Trace.reports_ofDiagnostic _ d) (ih (first + 1))

theorem isTold_of_mem_eventsFrom {stamp : Nat → Trace.Stamp} {first : Nat} {ds : List Diagnostic} {e : Json}
    (hds : ∀ d ∈ ds, d.toJson.isShort) (he : e ∈ eventsFrom stamp first ds) : e.IsTold := by
  obtain ⟨i, hi, rfl⟩ := List.mem_mapIdx.1 he
  exact (Trace.reports_ofDiagnostic _ _).isTold (hds _ (List.getElem_mem hi))

/-- What an open trace has a line for, of what is entered. -/
theorem filter_entered {log : Log} {w : Trace.Writer} (h : log.trace? = some w) (hw : w.isOpen)
    (ds : List Diagnostic) :
    (log.entered ds).filter (·.toJson.isShort) = ds.takeWhile log.takes := by
  induction ds with
  | nil => rfl
  | cons d ds ih =>
    have htakes := takes_of_isOpen h hw d
    by_cases hd : d.toJson.isShort
    · rw [List.takeWhile_cons_of_pos (htakes.trans hd), entered, if_pos (htakes.trans hd), ← ih]
      exact List.filter_cons_of_pos hd
    · rw [List.takeWhile_cons_of_neg (by rwa [htakes]), entered, if_neg (by rwa [htakes])]
      split
      · exact List.filter_cons_of_neg hd
      · exact List.filter_nil

end Log

namespace Session

/-- The session after its log was used. -/
def use (s : Session) : Use → Session
  | .call t c => (s.record (t.call c).1).1
  | .report d => (s.record (α := Unit) ⟨[d], .ok ()⟩).1

/-- The session after its log was used several times. -/
def useAll (s : Session) (uses : List Use) : Session := uses.foldl use s

/-- A log that kept its entries, and an open trace that got one line for each new one without a number that is too
long. -/
structure Follows (s s' : Session) (content : String) (entered : List Diagnostic) : Prop where
  entries : s'.log.entries = s.log.entries ++ entered
  trace : ∃ text events, s'.log.trace? = some ⟨content ++ text, true⟩ ∧ Trace.IsLines text events ∧
    List.Forall₂ Trace.Reports (entered.filter (·.toJson.isShort)) events ∧ ∀ e ∈ events, e.IsTold

theorem follows_refl {s : Session} {content : String} (h : s.log.trace? = some ⟨content, true⟩) :
    s.Follows s content [] where
  entries := (List.append_nil _).symm
  trace := ⟨"", [], by rw [h, String.append_empty], Trace.isLines_join [], .nil, List.forall_mem_nil _⟩

theorem Follows.trans {s s' s'' : Session} {content content' : String} {xs ys : List Diagnostic}
    (h : s.Follows s' content xs) (hcontent : s'.log.trace? = some ⟨content', true⟩)
    (h' : s'.Follows s'' content' ys) : s.Follows s'' content (xs ++ ys) where
  entries := by rw [h'.entries, h.entries, List.append_assoc]
  trace := by
    obtain ⟨text, events, htrace, hlines, hreports, htold⟩ := h.trace
    obtain ⟨text', events', htrace', hlines', hreports', htold'⟩ := h'.trace
    obtain ⟨⟩ := htrace.symm.trans hcontent
    refine ⟨text ++ text', events ++ events', by rw [htrace', String.append_assoc], hlines.append hlines', ?_,
      List.forall_mem_append.2 ⟨htold, htold'⟩⟩
    rw [List.filter_append]
    exact List.rel_append hreports hreports'

theorem log_use (s : Session) (u : Use) : (s.use u).log = (s.log.reportAll s.stamp u.found).1 := by
  cases u with
  | call t c => exact s.log_record (t.call c).1
  | report d => exact s.log_record (α := Unit) ⟨[d], .ok ()⟩

theorem follows_use {s : Session} {content : String} (h : s.log.trace? = some ⟨content, true⟩) (u : Use) :
    s.Follows (s.use u) content (s.log.entered u.found) := by
  obtain ⟨hentries, htrace, -⟩ := s.log.reportAll_spec s.stamp u.found
  refine ⟨by rw [log_use, hentries], ?_⟩
  rw [log_use, htrace, h, Option.map_some, Log.filter_entered h rfl]
  obtain ⟨text, htext, hlines⟩ := Trace.extend_isLines content
    (Log.eventsFrom s.stamp s.log.entries.length (u.found.takeWhile s.log.takes))
  refine ⟨text, _, by rw [htext], hlines, Log.forall₂_eventsFrom _ _ _, fun e he => ?_⟩
  refine Log.isTold_of_mem_eventsFrom (fun d hd => ?_) he
  have htakes := List.mem_takeWhile_imp hd
  rwa [Log.takes_of_isOpen h rfl] at htakes

/-- A session that is used one time after another: each use adds what the log takes, which stays the same. -/
theorem follows_useAll {s : Session} {content : String} (h : s.log.trace? = some ⟨content, true⟩) (uses : List Use) :
    s.Follows (s.useAll uses) content (uses.flatMap fun u => s.log.entered u.found) := by
  unfold useAll
  induction uses generalizing s content with
  | nil => exact follows_refl h
  | cons u us ih =>
    have hfirst := follows_use h u
    obtain ⟨text, events, htrace, -⟩ := hfirst.trace
    have hentered : ∀ ds, (s.use u).log.entered ds = s.log.entered ds := by
      refine Log.entered_congr (funext fun d => ?_)
      rw [Log.takes_of_isOpen htrace rfl, Log.takes_of_isOpen h rfl]
    have hrest := ih htrace
    simp only [hentered] at hrest
    rw [List.foldl_cons, List.flatMap_cons]
    exact hfirst.trans htrace hrest

/-- **Logs and traces.**  A file that is used as a trace any number of times grows by one line for each event without
an integer that is too long, and the lines are read as the events.  Whatever a log with an open trace is used for, its
entries stay and one line for each new entry without a number that is too long is added to the trace; and what a use
finds is entered as a whole if no number of it is too long. -/
theorem trace_faithful (content : String) (files : List (List Json)) (s : Session) (uses : List Use)
    {traced : String} (h : s.log.trace? = some (.start traced)) :
    Trace.Kept content files (Trace.sessions content files) ∧
      s.Follows (s.useAll uses) traced (uses.flatMap fun u => s.log.entered u.found) ∧
      ∀ u ∈ uses, (∀ d ∈ u.found, d.toJson.isShort) → s.log.entered u.found = u.found := by
  refine ⟨Trace.kept_sessions content files, follows_useAll h uses, fun u _ hshort => ?_⟩
  refine Log.entered_of_takes fun d hd => ?_
  rw [Log.takes_of_isOpen h rfl]
  exact hshort d hd

/-- A file with a line break in a text, a real number and an empty use between; and a log that gets a complaint
from outside and one from a row with a stray sign. -/
theorem trace_faithful_of_stray_sign :
    let note : Json := .object [("kind", .text "a\n\"b\""), ("half", .real (.finite false (2 ^ 52) (-53)))]
    let s : Session := ⟨{ functions := ⟨[]⟩ }, { trace? := some (.start "") }, fun _ => ⟨"0", "now"⟩⟩
    let outside : Diagnostic := ⟨.tooDeep 4, .ofWidth 3 2⟩
    let stray : Diagnostic := ⟨.unexpected (.codePoint "*"), .ofWidth 0 1⟩
    let uses : List Use := [.report outside, .call { method := { functions := ⟨[]⟩ } } (.layout [.glyph '*'])]
    s.log.trace? = some (.start "") ∧ note.IsTold ∧ uses.map Use.found = [[outside], [stray]] ∧
      Trace.Kept "" [[note, .null], [], [note]] (Trace.sessions "" [[note, .null], [], [note]]) ∧
      s.Follows (s.useAll uses) "" (uses.flatMap fun u => s.log.entered u.found) ∧
      s.log.entered [outside] = [outside] := by
  intro note s outside stray uses
  have htrace : s.log.trace? = some (.start "") := rfl
  have hkeys : ["kind", "half"].Nodup := by decide
  have hhalf : Binary64.IsNormal (2 ^ 52) (-53) := ⟨by decide, by decide, by decide, fun _ => le_rfl⟩
  have hshort : outside.toJson.isShort := by decide +kernel
  obtain ⟨hfile, hlog, hentered⟩ := s.trace_faithful "" [[note, .null], [], [note]] uses htrace
  exact ⟨htrace, ⟨hkeys, trivial, hhalf, trivial⟩, by cbv, hfile, hlog,
    hentered (.report outside) List.mem_cons_self (List.forall_mem_singleton.2 hshort)⟩

/-- A complaint about a range with a number that is too long is entered, and leaves an open trace as it is. -/
theorem use_of_long_range {s : Session} {content : String} (h : s.log.trace? = some ⟨content, true⟩) {n : Nat}
    (hn : Literal.isShort n = false) : (s.use (.report ⟨.ambiguousExponent, .ofWidth n 0⟩)).log =
      { s.log with entries := s.log.entries ++ [⟨.ambiguousExponent, .ofWidth n 0⟩] } := by
  have hlong : s.log.takes ⟨.ambiguousExponent, .ofWidth n 0⟩ = false := by
    rw [Log.takes_of_isOpen h rfl]
    simp only [Diagnostic.toJson, Range.toJson, Range.ofWidth, Json.isShort, Json.membersAreShort, hn,
      Bool.false_and, Bool.and_false]
  obtain ⟨f, hreport⟩ := Log.report_of_not_takes s.stamp hlong
  rw [log_use, Use.found, Log.reportAll, hreport]
  rfl

/-- A range with a number that is too long is entered without a line, and a line behind a text that does not end in a
line break is not read as its event. -/
theorem long_range_is_not_traced :
    let s : Session := ⟨{}, { trace? := some (.start "") }, fun _ => ⟨"0", "now"⟩⟩
    let d : Diagnostic := ⟨.ambiguousExponent, .ofWidth (10 ^ Literal.digitLimit) 0⟩
    (s.useAll [.report d]).log = { entries := [d], trace? := some (.start "") } ∧
      (Trace.sessions "abc" [[.null]]).map (·.1.content) = ["abcnull\n"] ∧
      Trace.events? "abcnull\n" = .error .malformed := by
  refine ⟨use_of_long_range rfl Literal.isShort_power, by decide +kernel, ?_⟩
  have hvalue : Json.readValue (Json.skipBlanks "abcnull".toList) = .error .malformed := by
    show Json.readValue ['a', 'b', 'c', 'n', 'u', 'l', 'l'] = .error .malformed
    rw [Json.readValue]
    · rfl
    all_goals decide
  have htext : Json.ofText "abcnull" = .error .malformed := by
    rw [Json.ofText, Json.Raw.ofText, hvalue]
    rfl
  unfold Trace.events?
  rw [show ("abcnull\n".toList.splitOn '\n').dropLast.map String.ofList = ["abcnull"] from rfl, List.mapM_cons, htext]
  rfl

end Session

end PlanarMath
