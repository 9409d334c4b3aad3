import PlanarMath.Proofs.Json.Characters
import PlanarMath.Trace

/-!
# Lines of a trace

Each event is one line: its text has no line break of its own, so a text of several lines splits into the texts of
their events, and each text is read as the event that it was written for.  A trace that is opened again is written
on, an event with an integer that is too long adds nothing, and a trace that is closed takes nothing more.

    {"kind":"a"}\n{"kind":"b"}\n    splits into    {"kind":"a"}    {"kind":"b"}    and nothing behind the last
-/

namespace PlanarMath

namespace Json

theorem isPlain_compact : compact.IsPlain where
  colon := ⟨[], rfl, areBlank_nil⟩
  first _ := areBlank_nil
  next _ := ⟨[], rfl, areBlank_nil⟩
  last _ := areBlank_nil

theorem forall_compact : compact.Forall NoControl where
  plain _ h := h
  colon := forall_noControl rfl
  first _ := List.forall_mem_nil _
  next _ := forall_noControl rfl
  last _ := List.forall_mem_nil _

/-- A compact text has no control character at all. -/
theorem forall_mem_compact (v : Json) : ∀ c ∈ (toText compact v).toList, NoControl c := by
  rw [toText, String.toList_ofList]
  exact forall_mem_write forall_compact v 0 [] (List.forall_mem_nil _)

end Json

namespace Trace

open Json

/-! ## Lines -/

/-- The line of an event is its compact text and the line break that ends it. -/
theorem toList_line (e : Json) : (line e).toList = (toText compact e).toList ++ ['\n'] := String.toList_append

/-- The values of the lines of a text, the last of which has to be empty. -/
def events? (text : String) : Except ReadError (List Json) :=
  ((text.toList.splitOn '\n').dropLast.map String.ofList).mapM ofText

/-- A text that consists of one line for each event. -/
structure IsLines (text : String) (events : List Json) : Prop where
  eq : text = String.join (events.map fun e => toText compact e ++ "\n")
  noBreak : ∀ e ∈ events, ∀ c ∈ (toText compact e).toList, c ≠ '\n' ∧ c ≠ '\r'
  split : text.toList.splitOn '\n' = events.map (fun e => (toText compact e).toList) ++ [[]]
  told : ∀ e ∈ events, e.IsTold → ofText (toText compact e) = .ok e
  all_told : (∀ e ∈ events, e.IsTold) → events? text = .ok events

theorem noBreak_compact (e : Json) : ∀ c ∈ (toText compact e).toList, c ≠ '\n' ∧ c ≠ '\r' := by
  intro c hc
  have hcontrol := forall_mem_compact e c hc
  constructor
  · rintro rfl
    exact absurd hcontrol (by decide)
  · rintro rfl
    exact absurd hcontrol (by decide)

theorem splitOn_lines (events : List Json) : (String.join (events.map line)).toList.splitOn '\n' =
    events.map (fun e => (toText compact e).toList) ++ [[]] := by
  induction events with
  | nil => rfl
  | cons e es ih =>
    rw [List.map_cons, String.join_cons, String.toList_append, toList_line, List.append_assoc, List.singleton_append]
    have hbreak : '\n' ∉ (toText compact e).toList := fun hc => (noBreak_compact e '\n' hc).1 rfl
    exact (List.splitOn_append_cons_self_of_not_mem hbreak _).trans (congrArg _ ih)

theorem mapM_ofText (events : List Json) (h : ∀ e ∈ events, e.IsTold) :
    (events.map (toText compact)).mapM ofText = .ok events := by
  induction events with
  | nil => rfl
  | cons e es ih =>
    obtain ⟨he, hes⟩ := List.forall_mem_cons.1 h
    rw [List.map_cons, List.mapM_cons, ofText_toText isPlain_compact he, ih hes]
    rfl

/-- **Lines.**  The texts of events, each ended by a line break, are one line for each event. -/
theorem isLines_join (events : List Json) : IsLines (String.join (events.map line)) events where
  eq := rfl
  noBreak e _ := noBreak_compact e
  split := splitOn_lines events
  told e _ he := ofText_toText isPlain_compact he
  all_told h := by
    unfold events?
    rw [splitOn_lines, List.dropLast_concat, List.map_map]
    have htexts : String.ofList ∘ (fun e => (toText compact e).toList) = toText compact :=
      funext fun e => String.ofList_toList
    rw [htexts]
    exact mapM_ofText events h

theorem IsLines.append {first second : String} {xs ys : List Json} (h : IsLines first xs) (h' : IsLines second ys) :
    IsLines (first ++ second) (xs ++ ys) := by
  rw [h.eq, h'.eq, ← String.join_append, ← List.map_append]
  exact isLines_join (xs ++ ys)

/-- What a trace is extended by is one line for each event. -/
theorem extend_isLines (content : String) (events : List Json) :
    ∃ text, extend content events = content ++ text ∧ IsLines text events := ⟨_, rfl, isLines_join events⟩

/-- A text whose last line, if there is any, is ended. -/
def IsEnded (content : String) : Prop := content = "" ∨ ∃ before, content = before ++ "\n"

/-- Lines behind a text whose last line is ended are lines of the whole. -/
theorem IsLines.split_append {content text : String} {events : List Json} (h : IsLines text events)
    (hcontent : IsEnded content) : (content ++ text).toList.splitOn '\n' =
      (content.toList.splitOn '\n').dropLast ++ events.map (fun e => (toText compact e).toList) ++ [[]] := by
  obtain rfl | ⟨before, rfl⟩ := hcontent
  · rw [String.empty_append, h.split]
    rfl
  · have hcut : ∀ rest : List Char, ((before ++ "\n").toList ++ rest).splitOn '\n' =
        before.toList.splitOn '\n' ++ rest.splitOn '\n' := by
      intro rest
      rw [String.toList_append, List.append_assoc]
      exact List.splitOn_append_cons_self _ _
    have hbefore := hcut []
    rw [List.append_nil, List.splitOn_nil] at hbefore
    rw [String.toList_append, hcut, h.split, hbefore, List.dropLast_concat, List.append_assoc]

/-! ## Writers -/

/-- What comes of an event that an open trace is given. -/
def answer (e : Json) : Except Fault Unit := if e.isShort then .ok () else .error .tooManyDigits

/-- An open trace grows by the lines of the events without an integer that is too long. -/
theorem Writer.appendEach_open (content : String) (events : List Json) :
    (Writer.mk content true).appendEach events =
      (⟨extend content (events.filter Json.isShort), true⟩, events.map answer) := by
  induction events generalizing content with
  | nil => rw [appendEach, List.filter_nil, extend_nil, List.map_nil]
  | cons e es ih =>
    rw [appendEach, append_eq, List.map_cons, answer]
    by_cases he : e.isShort
    · simp only [if_pos he, if_true, ih, List.filter_cons_of_pos he, ← extend_append, List.singleton_append]
    · simp only [if_neg he, ih, List.filter_cons_of_neg he]

/-- A trace that takes no more events, and stays as it is whatever it is given. -/
structure Writer.IsClosed (w : Writer) : Prop where
  isOpen : w.isOpen = false
  append : ∀ e, ∃ f, w.append e = .error f
  closed : ∀ e : Json, e.isShort → w.append e = .error .closedTrace
  unchanged : ∀ events, (w.appendEach events).1 = w

theorem Writer.isClosed_of_isOpen {w : Writer} (h : w.isOpen = false) : w.IsClosed := by
  have happend : ∀ e, w.append e = .error (if e.isShort then .closedTrace else .tooManyDigits) := by
    intro e
    rw [append_eq, h]
    split <;> rfl
  refine ⟨h, fun e => ⟨_, happend e⟩, fun e he => by rw [happend, if_pos he], fun events => ?_⟩
  induction events with
  | nil => rfl
  | cons e es ih => rw [appendEach, happend, ih]

/-! ## Sessions -/

/-- The content of a file after several uses as a trace. -/
def contentAfter (content : String) (ws : List (Writer × List (Except Fault Unit))) : String :=
  (ws.getLast?.map (·.1.content)).getD content

theorem contentAfter_cons (content : String) (w : Writer × List (Except Fault Unit))
    (ws : List (Writer × List (Except Fault Unit))) :
    contentAfter content (w :: ws) = contentAfter w.1.content ws := by
  cases ws with
  | nil => rfl
  | cons v ws => rfl

theorem session_eq (content : String) (events : List Json) : session content events =
    (⟨extend content (events.filter Json.isShort), false⟩, events.map answer) := by
  rw [session, Writer.start, Writer.appendEach_open]
  rfl

/-- A file that is used as a trace several times: what it holds after some of these uses. -/
theorem contentAfter_sessions (content : String) (uses : List (List Json)) (n : Nat) :
    contentAfter content ((sessions content uses).take n) =
      extend content ((uses.take n).flatten.filter Json.isShort) := by
  induction uses generalizing content n with
  | nil => simp [sessions, contentAfter, extend_nil]
  | cons events uses ih =>
    cases n with
    | zero => simp [contentAfter, extend_nil]
    | succ n =>
      rw [sessions, List.take_succ_cons, List.take_succ_cons, contentAfter_cons, List.flatten_cons,
        List.filter_append, extend_append, ih, session_eq]

theorem map_snd_sessions (content : String) (uses : List (List Json)) :
    (sessions content uses).map (·.2) = uses.map (·.map answer) := by
  induction uses generalizing content with
  | nil => rfl
  | cons events uses ih => rw [sessions, List.map_cons, List.map_cons, ih, session_eq]

theorem isClosed_of_mem_sessions {content : String} {uses : List (List Json)}
    {w : Writer × List (Except Fault Unit)} (hw : w ∈ sessions content uses) : w.1.IsClosed := by
  induction uses generalizing content with
  | nil => cases hw
  | cons events uses ih =>
    rw [sessions, List.mem_cons] at hw
    obtain rfl | hw := hw
    · exact Writer.isClosed_of_isOpen (by rw [session_eq])
    · exact ih hw

end Trace

end PlanarMath
