import PlanarMath.Proofs.CommandLine.Files
import PlanarMath.Proofs.CommandLine.Verdict
import PlanarMath.Proofs.FunctionTable.Meaning
import PlanarMath.Proofs.Layout.RoundTrip
import PlanarMath.Proofs.Reading.Bounded
import PlanarMath.Proofs.Session.Trace

/-!
# What runs leave behind

A run either fails, with one line of output and the content of every file as it was, or reports: it prints the
expression and one entry for each complaint, and adds one line for each to its trace.  All that a run needs is
read before its trace is opened, and reading the layout gives an expression unless it meets a function whose
name holds a half.

    inputs unreadable            ERROR …        no file changes at all
    trace cannot be opened       ERROR …        no content changes
    limit without a value        ERROR …        nothing is added to the trace
    name with a half             ERROR …        one line for each complaint until then, in the trace alone
    otherwise                    a report       one line for each complaint, in the trace alone

A limit without a value is compared with the depth of the first construct, behind the opening of the trace; a row
of characters alone is read.
-/

namespace PlanarMath

namespace WordTable

/-! ## Tables from files -/

/-- The names of a table that a file gives are not empty. -/
theorem name_ne_empty {content : String} {t : WordTable Text.Points} (h : ofText content = .ok t) :
    ∀ name ∈ t.names, name ≠ ∅ := by
  rintro name hname rfl
  obtain ⟨raw, hraw, hshort⟩ := exists_denotes h
  rw [ofText_of_denotes hraw hshort] at h
  obtain ⟨t', ht', hmeans, hnamed⟩ | ⟨before, key, after, -, -, -, herror⟩ := ofRaw_object raw
  · cases ht'.symm.trans h
    obtain ⟨word, hlast⟩ := (hmeans.names ∅).1 hname
    -- The key of an empty name has, by the same file, a name that is not empty.
    obtain ⟨other, hlast', hne⟩ := hnamed word (Json.mem_keys_of_last? hlast)
    cases hlast.symm.trans hlast'
    exact hne rfl
  · cases herror.symm.trans h

/-- As rows see it, the table of a file lacks a name only if a name of the file holds a half. -/
theorem exists_half {content : String} {t : WordTable Text.Points} (h : ofText content = .ok t)
    (hview : ¬FunctionTable.HasNames t.view) : ∃ name ∈ t.names, name.toString? = none := by
  obtain ⟨e, he, hname⟩ : ∃ e ∈ t.entries, symbolName e.name = "" := by
    simpa [FunctionTable.HasNames, view] using hview
  have hmem : e.name ∈ t.names := mem_names_iff.2 ⟨e, he, rfl⟩
  refine ⟨e.name, hmem, ?_⟩
  cases hstring : e.name.toString? with
  | none => rfl
  | some s =>
    rw [symbolName, hstring] at hname
    obtain rfl : s = "" := hname
    exact absurd (Text.Points.toString?_eq_some_iff.1 hstring) (name_ne_empty h _ hmem)

end WordTable

namespace CommandLine

open Layout Files

/-! ## Limits from arguments -/

/-- The depth of a limit that has one. -/
def DepthLimit.depth? : DepthLimit → Option Int
  | .atMost depth => some depth
  | .unlimited | .blank => none

/-- A limit whose depth, if it has one, is not too long. -/
def DepthLimit.IsShort (limit : DepthLimit) : Prop := ∀ n, limit.depth? = some n → Literal.isShort n

namespace Request

variable {r r' : Request}

theorem isShort_withText {text? : Option String} (hr : r.limit.IsShort) (h : r.withText text? = .ok r') :
    r'.limit.IsShort := by
  unfold withText at h
  split at h
  · cases h
  · cases h
    exact hr

theorem isShort_withPath {path : String} (hr : r.limit.IsShort) (h : r.withPath path = .ok r') :
    r'.limit.IsShort := by
  unfold withPath at h
  split at h
  · cases h
  · cases h
    exact hr

theorem isShort_withOption {flag : Flag} {value? : Option String} (hr : r.limit.IsShort)
    (h : r.withOption flag value? = .ok r') : r'.limit.IsShort := by
  unfold withOption at h
  split at h
  · cases h
  · exact isShort_withText hr h
  · cases h
    exact hr
  · split at h
    · cases h
      exact hr
    · cases h
  · cases h
    exact hr
  · cases h
    exact nofun
  · split at h
    · next n hn =>
      cases h
      rintro n ⟨⟩
      exact Literal.isShort_of_integer? hn
    · cases h
  · cases h
    exact hr

theorem isShort_after {args : List Argument} (hr : r.limit.IsShort) (h : r.after args = .ok r') :
    r'.limit.IsShort := by
  fun_induction after r args with
  | case1 =>
    cases h
    exact hr
  | case4 _ _ _ _ _ hw ih | case6 _ _ _ _ _ _ hw ih => exact ih (isShort_withOption hr hw) h
  | case9 _ _ ih | case10 _ _ _ _ ih | case13 _ _ _ _ ih | case16 _ _ _ _ _ ih | case19 _ _ _ ih => exact ih hr h
  | case11 _ _ _ _ _ hp ih | case14 _ _ _ _ _ hp ih | case17 _ _ _ _ _ _ hp ih => exact ih (isShort_withPath hr hp) h
  | _ => cases h

end Request
theorem Arguments.isShort_limit {args : List String} {a : Arguments} (h : ofList args = .ok a) : a.limit.IsShort := by
  unfold ofList at h
  split at h
  · cases h
  · split at h
    · cases h
    · next r hr =>
      have hshort := Request.isShort_after (r := {}) nofun hr
      unfold Request.finish at h
      split at h
      · cases h
      · split at h
        · cases h
        · cases h
          exact hshort

/-! ## Inputs -/

/-- The layout of a file that holds one. -/
theorem loadLayout_path {files : Files} {path content : String} {row : Row} (hpath : path ≠ "")
    (hread : files.read path = .ok content) (hrow : Row.ofText content = .ok row) :
    loadLayout files (.path path) = .ok row := by
  unfold loadLayout
  split
  · next heq => cases heq
  · next heq => cases heq
  · next heq => exact absurd (Source.path.inj heq) hpath
  · next heq =>
    cases heq
    simp only [hread, hrow]

/-- A run whose function table is read from a file in which a name holds a half. -/
def Arguments.HasHalf (a : Arguments) (files : Files) : Prop :=
  ∃ path content table, a.functions? = some path ∧ files.read path = .ok content ∧
    WordTable.ofText content = .ok table ∧ ∃ name ∈ table.names, name.toString? = none

theorem hasHalf_of_not_hasNames {a : Arguments} {files : Files} {table : FunctionTable}
    (h : loadTable files a.functions? = .ok table) (hnames : ¬table.HasNames) : a.HasHalf files := by
  unfold loadTable at h
  split at h
  · cases h
    exact absurd FunctionTable.hasNames_standard hnames
  · cases h
    exact absurd FunctionTable.hasNames_standard hnames
  · next path _ hpath =>
    split at h
    · cases h
    · next content hcontent =>
      unfold FunctionTable.ofText at h
      cases ht : WordTable.ofText content with
      | error e =>
        rw [ht] at h
        cases h
      | ok t =>
        rw [ht] at h
        cases h
        exact ⟨path, content, t, hpath, hcontent, ht, WordTable.exists_half ht hnames⟩

/-! ## Opening and writing the trace -/

/-- One line for each event was added to the file at a place, if there is one, and no other content changed. -/
structure Traced (place? : Option Path) (events : List Json) (files files' : Files) : Prop where
  content?_place : ∀ place, place? = some place →
    ∃ text, files'.content? place = some ((files.content? place).getD "" ++ text) ∧ Trace.IsLines text events
  content?_of_ne : ∀ place, place? ≠ some place → files'.content? place = files.content? place

theorem Traced.untraced (events : List Json) (files : Files) : Traced none events files files where
  content?_place _ h := nomatch h
  content?_of_ne _ _ := rfl

theorem openTrace_error {files opened : Files} {path? : Option String} {e : FileError}
    (h : openTrace files path? = (opened, .error e)) : SameContents files opened := by
  unfold openTrace at h
  split at h
  · cases h
  · cases h
  · split at h
    · next heq =>
      cases h
      exact openToAdd_error heq
    · cases h

/-- What was added to the trace after it was opened is there, and nothing else changed. -/
theorem openTrace_ok {files opened : Files} {path? : Option String} {trace? : Option TraceFile}
    (h : openTrace files path? = (opened, .ok trace?)) :
    Traced (trace?.map TraceFile.place) [] files opened ∧
      ∀ (log : Log) (events : List Json),
        log.trace? = trace?.map (fun trace => .start (Trace.extend trace.content events)) →
        Traced (trace?.map TraceFile.place) events files (writeTrace opened log trace?) := by
  unfold openTrace at h
  split at h
  · cases h
    exact ⟨.untraced [] files, fun log events _ => .untraced events files⟩
  · cases h
    exact ⟨.untraced [] files, fun log events _ => .untraced events files⟩
  · split at h
    · cases h
    · next place content heq =>
      cases h
      have hopened := openToAdd_ok heq
      have ne_of : ∀ {other}, some place ≠ some other → other ≠ place := fun h ho => h (congrArg some ho.symm)
      refine ⟨⟨?_, fun other ho => hopened.content?_of_ne other (ne_of ho)⟩, fun log events hlog => ⟨?_, ?_⟩⟩
      · rintro other ⟨⟩
        refine ⟨"", ?_, Trace.isLines_join []⟩
        rw [hopened.content?_place, hopened.content_eq, String.append_empty]
      · rintro other ⟨⟩
        obtain ⟨text, htext, hlines⟩ := Trace.extend_isLines content events
        refine ⟨text, ?_, hlines⟩
        rw [Option.map_some] at hlog
        simp only [writeTrace, hlog, Option.map_some, Option.getD_some, Trace.Writer.start]
        rw [content?_insert_self hopened.not_isFixed, htext, hopened.content_eq]
      · intro other ho
        rw [Option.map_some] at hlog
        simp only [writeTrace]
        rw [content?_insert_of_ne (ne_of ho), hopened.content?_of_ne other (ne_of ho)]

/-- What is found is in the trace, up to the first complaint with a number that is too long. -/
theorem traced_readAndReport (stamp : Nat → Trace.Stamp) {files opened : Files} {path? : Option String}
    {trace? : Option TraceFile} (h : openTrace files path? = (opened, .ok trace?)) (format : Format) (o : Options)
    (row : Row) :
    Traced (trace?.map TraceFile.place)
      (Log.eventsFrom stamp 0 ((readLayout o row).found.takeWhile (·.toJson.isShort))) files
      (readAndReport stamp format o row opened trace?).2 := by
  refine (openTrace_ok h).2 ((sessionOf stamp o trace?).record (Result.ofReport (readLayout o row))).1.log _ ?_
  rw [Session.log_record, (Log.reportAll_spec _ _ _).2.1]
  cases trace? with
  | none => rfl
  | some trace =>
    have htakes : (sessionOf stamp o (some trace)).log.takes = (·.toJson.isShort) :=
      funext (Log.takes_of_isOpen rfl rfl)
    rw [htakes]
    rfl

/-! ## One run -/

/-- What a run reads before it writes anything: the layout and the function table. -/
def Arguments.inputs (a : Arguments) (files : Files) : Except Failure (Row × FunctionTable) :=
  match loadLayout files a.source with
  | .error e => .error e
  | .ok row => (loadTable files a.functions?).map (row, ·)

/-- A limit that the depth of a construct in the row has to be compared with, and that has no value. -/
def DepthLimit.Fails (limit : DepthLimit) (row : Row) : Prop :=
  limit = .blank ∧ ¬row.all Element.isGlyph

/-- A failure: one line of output and the code one. -/
structure Outcome.Fails (o : Outcome) (e : Failure) : Prop where
  outcome : o = .failed e
  output : o.output = "ERROR: " ++ e.message ++ "\n"
  code : o.code = 1

/-- The expression, and one entry for each complaint in their order. -/
def reportText (format : Format) (e : Expr) (found : List Diagnostic) : String :=
  match format with
  | .json => Json.toText Json.spaced (.object [("status", .text (if found = [] then "ok" else "error")),
      ("node", e.toJson), ("diagnostics", .array (found.map Diagnostic.toJson))]) ++ "\n"
  | .sexpr => e.sexpr ++ "\n" ++ String.join (found.map (·.line ++ "\n"))
  | .text => e.display ++ "\n" ++ String.join (found.map (·.line ++ "\n"))

/-- A report on an expression: its text, and the code zero exactly when there is no complaint, otherwise one. -/
structure Outcome.Reports (o : Outcome) (format : Format) (e : Expr) (found : List Diagnostic) : Prop where
  outcome : o = .finished format ⟨e, found⟩
  output : o.output = reportText format e found
  code : o.code = if found = [] then 0 else 1

theorem Outcome.lines_eq (expr : String) (result : Result) :
    lines expr result = expr ++ "\n" ++ String.join (result.diagnostics.map (·.line ++ "\n")) := by
  unfold lines
  rw [List.map_cons, List.map_map, String.join_cons]
  rfl

theorem Outcome.reports_finished (format : Format) (e : Expr) (found : List Diagnostic) :
    (Outcome.finished format ⟨e, found⟩).Reports format e found where
  outcome := rfl
  output := by
    cases format with
    | json => cases found <;> rfl
    | sexpr => exact lines_eq e.sexpr ⟨e, found⟩
    | text => exact lines_eq e.display ⟨e, found⟩
  code := by cases found <;> rfl

/-- What a run with accepted arguments does, from the files that it finds to those that it leaves.  The indices of a
layout are taken to be no longer than can be written. -/
def Account (stamp : Nat → Trace.Stamp) (a : Arguments) (files : Files) (o : Outcome) (files' : Files) : Prop :=
  match a.inputs files, (openTrace files a.trace?).2 with
  | .error e, _ => o.Fails e ∧ files' = files
  | .ok _, .error e => o.Fails (.file e) ∧ SameContents files files'
  | .ok (row, functions), .ok trace? =>
    let report := readLayout { functions, limit? := a.limit.depth? } row
    (a.limit.Fails row → o.Fails .blankLimit ∧ Traced (trace?.map TraceFile.place) [] files files') ∧
    (¬a.limit.Fails row → Literal.isShort (Row.width row) →
      List.Forall₂ Trace.Reports report.found (Log.eventsFrom stamp 0 report.found) ∧
      Traced (trace?.map TraceFile.place) (Log.eventsFrom stamp 0 report.found) files files' ∧
      (∀ e, report.result = .ok e → o.Reports a.format e.expr report.found) ∧
      ∀ f, report.result = .error f → o.Fails (.fault f) ∧ a.HasHalf files)

theorem limitFor_of_fails {limit : DepthLimit} {row : Row} (h : limit.Fails row) :
    limitFor row limit = .error .blankLimit := by
  obtain ⟨rfl, hrow⟩ := h
  exact if_neg hrow

theorem limitFor_of_not_fails {limit : DepthLimit} {row : Row} (h : ¬limit.Fails row) :
    limitFor row limit = .ok limit.depth? := by
  cases limit with
  | blank => exact if_pos (not_not.1 fun hrow => h ⟨rfl, hrow⟩)
  | _ => rfl

/-- A layout whose indices are not too long is read to its end, if no fault stops it. -/
theorem readAndReport_fst (stamp : Nat → Trace.Stamp) (format : Format) {o : Options} {row : Row} (files : Files)
    (trace? : Option TraceFile) (hshort : ∀ d ∈ (readLayout o row).found, d.toJson.isShort) :
    (readAndReport stamp format o row files trace?).1 = match (readLayout o row).result with
      | .error f => .failed (.fault f)
      | .ok e => .finished format ⟨e.expr, (readLayout o row).found⟩ := by
  have htakes : ∀ d ∈ (readLayout o row).found, (sessionOf stamp o trace?).log.takes d := by
    refine fun d hd => Log.takes_of_isShort ?_ (hshort d hd)
    intro w hw
    obtain ⟨trace, -, rfl⟩ := Option.map_eq_some_iff.1 hw
    rfl
  have hresult := ((sessionOf stamp o trace?).enters_record (Result.ofReport (readLayout o row))).taken htakes
  unfold readAndReport
  simp only [hresult]
  unfold Result.ofReport Report.map
  cases (readLayout o row).result <;> rfl

theorem runWith_account (stamp : Nat → Trace.Stamp) {a : Arguments} (ha : a.limit.IsShort) (files : Files) :
    Account stamp a files (runWith stamp a files).1 (runWith stamp a files).2 := by
  unfold Account Arguments.inputs runWith
  cases hlayout : loadLayout files a.source with
  | error e => exact ⟨⟨rfl, rfl, rfl⟩, rfl⟩
  | ok row =>
    cases htable : loadTable files a.functions? with
    | error e => exact ⟨⟨rfl, rfl, rfl⟩, rfl⟩
    | ok functions =>
      cases hopen : openTrace files a.trace? with
      | mk opened r =>
        cases r with
        | error e => exact ⟨⟨rfl, rfl, rfl⟩, openTrace_error hopen⟩
        | ok trace? =>
          refine ⟨fun hlimit => ?_, fun hlimit hwidth => ?_⟩
          · simp only [limitFor_of_fails hlimit]
            exact ⟨⟨rfl, rfl, rfl⟩, (openTrace_ok hopen).1⟩
          · simp only [limitFor_of_not_fails hlimit]
            let o : Options := { functions, limit? := a.limit.depth? }
            have hfound : ∀ d ∈ (readLayout o row).found, d.toJson.isShort := isShort_of_mem_found ha hwidth
            have htraced := traced_readAndReport stamp hopen a.format o row
            rw [List.takeWhile_eq_self_iff.2 hfound] at htraced
            have houtcome := readAndReport_fst stamp a.format opened trace? hfound
            refine ⟨Log.forall₂_eventsFrom stamp 0 _, htraced, fun e he => ?_, fun f hf => ⟨?_, ?_⟩⟩
            · rw [he] at houtcome
              rw [houtcome]
              exact Outcome.reports_finished a.format e.expr _
            · rw [hf] at houtcome
              rw [houtcome]
              exact ⟨rfl, rfl, rfl⟩
            · refine hasHalf_of_not_hasNames htable fun hnames => ?_
              obtain ⟨e, he⟩ := readLayout_isOk (o := o) hnames row
              cases he.symm.trans hf

/-! ## Runs one after another -/

/-- What became of the content at a place to which events were added: one line for each is behind it.  When there
are none, there may be an empty file where there was no file. -/
structure Grown (before after : Option String) (events : List Json) : Prop where
  of_none : after = none → before = none ∧ events = []
  of_some : ∀ content, after = some content → ∃ text, content = before.getD "" ++ text ∧ Trace.IsLines text events

theorem Grown.refl (content? : Option String) : Grown content? content? [] where
  of_none h := ⟨h, rfl⟩
  of_some content h := ⟨"", by rw [h, String.append_empty]; rfl, Trace.isLines_join []⟩

theorem Grown.trans {first second third : Option String} {xs ys : List Json} (h : Grown first second xs)
    (h' : Grown second third ys) : Grown first third (xs ++ ys) where
  of_none hthird := by
    obtain ⟨hsecond, rfl⟩ := h'.of_none hthird
    obtain ⟨hfirst, rfl⟩ := h.of_none hsecond
    exact ⟨hfirst, rfl⟩
  of_some content hthird := by
    obtain ⟨text, rfl, hlines⟩ := h'.of_some content hthird
    cases second with
    | none =>
      obtain ⟨rfl, rfl⟩ := h.of_none rfl
      exact ⟨text, rfl, hlines⟩
    | some middle =>
      obtain ⟨earlier, rfl, hearlier⟩ := h.of_some middle rfl
      exact ⟨earlier ++ text, by rw [Option.getD_some, String.append_assoc], hearlier.append hlines⟩

theorem Traced.grown {place? : Option Path} {events : List Json} {files files' : Files}
    (h : Traced place? events files files') (place : Path) :
    Grown (files.content? place) (files'.content? place) (if place? = some place then events else []) := by
  split
  · next hplace =>
    obtain ⟨text, htext, hlines⟩ := h.content?_place place hplace
    rw [htext]
    exact ⟨nofun, fun content hcontent => ⟨text, (Option.some.inj hcontent).symm, hlines⟩⟩
  · next hplace =>
    rw [h.content?_of_ne place hplace]
    exact .refl _

theorem SameContents.grown {files files' : Files} (h : SameContents files files') (place : Path) :
    Grown (files.content? place) (files'.content? place) [] := by
  rw [h place]
  exact .refl _

/-- The place of the trace that a run opens. -/
def tracePlace? (a : Arguments) (files : Files) : Option Path :=
  match (openTrace files a.trace?).2 with
  | .ok trace? => trace?.map TraceFile.place
  | .error _ => none

/-- The complaints of a run for its trace, if it has one: all that is found until a fault stops it. -/
def Arguments.traced (a : Arguments) (files : Files) : List Diagnostic :=
  match a.inputs files with
  | .error _ => []
  | .ok (row, functions) => match limitFor row a.limit with
    | .error _ => []
    | .ok limit? => (readLayout { functions, limit? } row).found.takeWhile (·.toJson.isShort)

/-- The events that a run adds at a place. -/
def eventsAt (stamp : Nat → Trace.Stamp) (place : Path) (args : List String) (files : Files) : List Json :=
  match Arguments.ofList args with
  | .error _ => []
  | .ok a => if tracePlace? a files = some place then Log.eventsFrom stamp 0 (a.traced files) else []

/-- The events that several runs add at a place. -/
def eventsOfRuns (stamp : Nat → Trace.Stamp) (place : Path) : List (List String) → Files → List Json
  | [], _ => []
  | args :: rest, files =>
    eventsAt stamp place args files ++ eventsOfRuns stamp place rest (run stamp args files).2

theorem run_of_ofList {stamp : Nat → Trace.Stamp} {args : List String} {a : Arguments}
    (ha : Arguments.ofList args = .ok a) (files : Files) : run stamp args files = runWith stamp a files := by
  unfold run
  rw [ha]

theorem grown_runWith (stamp : Nat → Trace.Stamp) (place : Path) (a : Arguments) (files : Files) :
    Grown (files.content? place) ((runWith stamp a files).2.content? place)
      (if tracePlace? a files = some place then Log.eventsFrom stamp 0 (a.traced files) else []) := by
  have hnone : (if tracePlace? a files = some place then Log.eventsFrom stamp 0 [] else []) = [] := ite_self _
  unfold Arguments.traced Arguments.inputs runWith
  cases hlayout : loadLayout files a.source with
  | error e =>
    simp only [hnone]
    exact .refl _
  | ok row =>
    cases htable : loadTable files a.functions? with
    | error e =>
      simp only [Except.map, hnone]
      exact .refl _
    | ok functions =>
      clear hnone
      unfold tracePlace?
      cases hopen : openTrace files a.trace? with
      | mk opened r =>
        cases r with
        | error e => exact SameContents.grown (openTrace_error hopen) place
        | ok trace? =>
          simp only [Except.map]
          cases hlimit : limitFor row a.limit with
          | error e =>
            exact (openTrace_ok hopen).1.grown place
          | ok limit? => exact (traced_readAndReport stamp hopen a.format { functions, limit? } row).grown place

theorem grown_run (stamp : Nat → Trace.Stamp) (place : Path) (args : List String) (files : Files) :
    Grown (files.content? place) ((run stamp args files).2.content? place) (eventsAt stamp place args files) := by
  unfold eventsAt
  cases ha : Arguments.ofList args with
  | error r =>
    unfold run
    rw [ha]
    exact .refl _
  | ok a =>
    rw [run_of_ofList ha]
    exact grown_runWith stamp place a files

/-- Each file grows by what the runs add to it, in their order. -/
theorem grown_runAll (stamp : Nat → Trace.Stamp) (place : Path) (runs : List (List String)) (files : Files) :
    Grown (files.content? place) ((runAll stamp runs files).2.content? place)
      (eventsOfRuns stamp place runs files) := by
  induction runs generalizing files with
  | nil => exact .refl _
  | cons args rest ih => exact (grown_run stamp place args files).trans (ih _)

theorem runAll_cons (stamp : Nat → Trace.Stamp) (args : List String) (rest : List (List String)) (files : Files) :
    runAll stamp (args :: rest) files =
      ((run stamp args files).1 :: (runAll stamp rest (run stamp args files).2).1,
        (runAll stamp rest (run stamp args files).2).2) := rfl

theorem runAll_append (stamp : Nat → Trace.Stamp) (first second : List (List String)) (files : Files) :
    runAll stamp (first ++ second) files =
      ((runAll stamp first files).1 ++ (runAll stamp second (runAll stamp first files).2).1,
        (runAll stamp second (runAll stamp first files).2).2) := by
  induction first generalizing files with
  | nil => rfl
  | cons args rest ih =>
    rw [List.cons_append, runAll_cons, runAll_cons, ih]
    rfl

theorem length_outcomes (stamp : Nat → Trace.Stamp) (runs : List (List String)) (files : Files) :
    (runAll stamp runs files).1.length = runs.length := by
  induction runs generalizing files with
  | nil => rfl
  | cons args rest ih =>
    rw [runAll_cons, List.length_cons, List.length_cons, ih]

/-- **Runs.**  Any accepted run among others fails cleanly or reports completely, a limit without a value and a name
with a half apart, and after all of them each file holds what it held at first and what the runs added to it, in their
order. -/
theorem runs_account (stamp : Nat → Trace.Stamp) (before rest : List (List String)) (files : Files)
    {args : List String} {a : Arguments} (ha : Arguments.ofList args = .ok a) :
    let found := (runAll stamp before files).2
    let left := (run stamp args found).2
    (runAll stamp (before ++ args :: rest) files).1[before.length]? = some (run stamp args found).1 ∧
    Account stamp a found (run stamp args found).1 left ∧
    (runAll stamp (before ++ args :: rest) files).2 = (runAll stamp rest left).2 ∧
    ∀ place,
      Grown (files.content? place) (found.content? place) (eventsOfRuns stamp place before files) ∧
      Grown (left.content? place) ((runAll stamp rest left).2.content? place)
        (eventsOfRuns stamp place rest left) := by
  intro found left
  refine ⟨?_, ?_, ?_, fun place => ⟨grown_runAll stamp place before files, grown_runAll stamp place rest left⟩⟩
  · rw [runAll_append, ← length_outcomes stamp before files, List.getElem?_append_right le_rfl, Nat.sub_self]
    rfl
  · change Account stamp a found (run stamp args found).1 (run stamp args found).2
    rw [run_of_ofList ha]
    exact runWith_account stamp (Arguments.isShort_limit ha) found
  · rw [runAll_append]
    rfl

/-- A run that traces a stray sign, between two runs with another on the same trace. -/
theorem runs_account_of_stray_sign :
    let stamp : Nat → Trace.Stamp := fun _ => ⟨"0", "now"⟩
    let first := ["--text", "+", "--trace", "t"]
    let args := ["--text", "*", "--format", "text", "--trace", "t"]
    let a : Arguments := ⟨.text (some "*"), .text, none, .unlimited, some "t"⟩
    let found := (runAll stamp [first] []).2
    let left := (run stamp args found).2
    Arguments.ofList args = .ok a ∧
    a.inputs found = .ok ([.glyph '*'], .standard) ∧ ¬a.limit.Fails [.glyph '*'] ∧
    Literal.isShort (Row.width [.glyph '*']) ∧
    (runAll stamp ([first] ++ [args, first]) []).1[[first].length]? = some (run stamp args found).1 ∧
    Account stamp a found (run stamp args found).1 left ∧
    (runAll stamp ([first] ++ [args, first]) []).2 = (runAll stamp [first] left).2 ∧
    ∀ place,
      Grown (Files.content? [] place) (found.content? place) (eventsOfRuns stamp place [first] []) ∧
      Grown (left.content? place) ((runAll stamp [first] left).2.content? place)
        (eventsOfRuns stamp place [first] left) := by
  intro stamp first args a found left
  have ha : Arguments.ofList args = .ok a := by cbv
  have hlimit : ¬a.limit.Fails [.glyph '*'] := by
    rintro ⟨h, -⟩
    cases h
  exact ⟨ha, rfl, hlimit, by decide +kernel, runs_account stamp [first] [first] [] ha⟩

/-- With a limit without a value, a row with a construct fails although the layout, the function table and the
trace can all be read. -/
theorem radical_under_blank_limit :
    let row : Row := [.framed .radical [.glyph 'x']]
    let files : Files := [(["l"], .file (Row.toText row))]
    let args := ["l", "--max-depth=--", "--format", "sexpr"]
    let a : Arguments := ⟨.path "l", .sexpr, none, .blank, none⟩
    let o := (run (fun _ => ⟨"0", "now"⟩) args files).1
    Arguments.ofList args = .ok a ∧ a.inputs files = .ok (row, .standard) ∧
      (openTrace files a.trace?).2 = .ok none ∧ o = .failed .blankLimit ∧ o.code = 1 ∧
      o.output = "ERROR: '>=' not supported between instances of 'int' and 'list'\n" := by
  intro row files args a o
  have ha : Arguments.ofList args = .ok a := by cbv
  have hread : ∀ content, Files.read [(["l"], .file content)] "l" = .ok content := by
    intro content
    cbv
  have hlayout : loadLayout files a.source = .ok row :=
    loadLayout_path (by decide) (hread _) (Row.ofText_toText row)
  have hinputs : a.inputs files = .ok (row, .standard) := by
    unfold Arguments.inputs
    rw [hlayout]
    rfl
  have hfails : o.Fails .blankLimit := by
    have haccount := runWith_account (fun _ => ⟨"0", "now"⟩) (Arguments.isShort_limit ha) files
    unfold Account at haccount
    rw [hinputs] at haccount
    change (run _ args files).1.Fails .blankLimit
    rw [run_of_ofList ha]
    exact (haccount.1 ⟨rfl, by decide⟩).1
  exact ⟨ha, hinputs, rfl, hfails.outcome, hfails.code, hfails.output⟩

end CommandLine

end PlanarMath
