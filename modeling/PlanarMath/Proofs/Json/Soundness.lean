import PlanarMath.Proofs.Json.Numerals

/-!
# What is read is written

Whatever the reader makes of a text, the part of the text that it has taken is written as that, and no value that is
read has an integer that is too long.  The proof follows the reader: names and numerals, then strings, and last
values, items and members together.

    reader     from `used ++ rest` takes `v`, leaves `rest`          grammar     `used` is written as `v`
-/

namespace PlanarMath.Json

open Text

/-! ## Blanks and names -/

/-- What is skipped is blank. -/
theorem exists_blanks (cs : List Char) : ∃ blanks, cs = blanks ++ skipBlanks cs ∧ AreBlank blanks := by
  induction cs with
  | nil => exact ⟨[], rfl, List.forall_mem_nil _⟩
  | cons c cs ih =>
    obtain ⟨blanks, hcs, hblanks⟩ := ih
    rw [skipBlanks]
    split
    · next hc => exact ⟨c :: blanks, congrArg (c :: ·) hcs, List.forall_mem_cons.2 ⟨hc, hblanks⟩⟩
    · exact ⟨[], rfl, List.forall_mem_nil _⟩

theorem eq_append_of_after? {bs cs rest : List Char} (h : after? bs cs = some rest) : cs = bs ++ rest := by
  induction bs generalizing cs with
  | nil => exact Option.some.inj h
  | cons b bs ih =>
    cases cs with
    | nil => cases h
    | cons c cs =>
      rw [after?] at h
      split at h
      · next hbc => rw [hbc, ih h, List.cons_append]
      · cases h

theorem of_readName? {table : List (List Char × Raw)} {cs : List Char} {p : Part Raw cs.length}
    (h : readName? table cs = some p) : ∃ name, (name, p.value) ∈ table ∧ cs = name ++ p.rest := by
  induction table with
  | nil =>
    rw [readName?] at h
    cases h
  | cons entry table ih =>
    have later : readName? table cs = some p → ∃ name, (name, p.value) ∈ entry :: table ∧ cs = name ++ p.rest :=
      fun h => (ih h).imp fun _ hname => ⟨List.mem_cons_of_mem entry hname.1, hname.2⟩
    rw [readName?] at h
    split at h
    · next rest hafter =>
      split at h
      · exact later h
      · cases h
        exact ⟨entry.1, List.mem_cons_self, eq_append_of_after? hafter⟩
    · exact later h

/-! ## Strings -/

theorem exists_hexDigits {cs : List Char} {point : Point} (h : unit? cs = some point) :
    ∃ a b c d rest, cs = a :: b :: c :: d :: rest ∧ unit? [a, b, c, d] = some point := by
  unfold unit? at h
  split at h
  · exact ⟨_, _, _, _, _, rfl, h⟩
  · cases h

/-- Code points are read one for each character or escape in front of the closing quote. -/
theorem of_readPoints (cs : List Char) : ∀ p, readPoints cs = .ok p →
    ∃ used, cs = used ++ '"' :: p.rest ∧ IsString used p.value := by
  fun_induction readPoints cs with
  | case2 rest =>
    rintro p ⟨⟩
    exact ⟨[], rfl, .nil⟩
  | case5 rest point hpoint q hq ih =>
    rintro p ⟨⟩
    obtain ⟨a, b, c, d, behind, rfl, hunit⟩ := exists_hexDigits hpoint
    obtain ⟨used, hused, hstring⟩ := ih q hq
    exact ⟨'\\' :: 'u' :: a :: b :: c :: d :: used, congrArg (['\\', 'u', a, b, c, d] ++ ·) hused, .unit hunit hstring⟩
  | case8 e rest he c hc q hq ih =>
    rintro p ⟨⟩
    obtain ⟨used, hused, hstring⟩ := ih q hq
    exact ⟨'\\' :: e :: used, congrArg (['\\', e] ++ ·) hused, .escape hc hstring⟩
  | case11 c rest hquote hu hescape hplain q hq ih =>
    rintro p ⟨⟩
    obtain ⟨used, hused, hstring⟩ := ih q hq
    obtain ⟨hslash, hlow⟩ := not_or.1 hplain
    exact ⟨c :: used, congrArg (c :: ·) hused, .plain hquote hslash (Nat.not_lt.1 hlow) hstring⟩
  | case1 | case3 | case4 | case6 | case7 | case9 | case10 => exact nofun

theorem of_readString {cs : List Char} {p : Part Points cs.length} (h : readString cs = .ok p) :
    ∃ used ps, cs = used ++ '"' :: p.rest ∧ IsString used ps ∧ p.value = ps.pair := by
  unfold readString at h
  split at h
  · cases h
  · next q hq =>
    cases h
    obtain ⟨used, hused, hstring⟩ := of_readPoints cs q hq
    exact ⟨used, q.value, hused, hstring, rfl⟩

/-! ## Numbers -/

theorem Numeral.of_value {n : Numeral} (h : n.IsWritten) {v : Raw} (hv : n.value = .ok v) :
    IsValue n.chars v ∧ v.isShort := by
  by_cases hint : n.IsInteger
  · rw [value_int h hint] at hv
    split at hv
    · next hshort =>
      cases hv
      exact ⟨.int h hint, hshort⟩
    · cases hv
  · obtain ⟨x, hx⟩ := exists_real h
    rw [value_real h hint hx] at hv
    cases hv
    exact ⟨.real h hint hx, rfl⟩

theorem of_readNumber {cs : List Char} {p : Part Raw cs.length} (h : readNumber cs = .ok p) :
    ∃ used, cs = used ++ p.rest ∧ IsValue used p.value ∧ p.value.isShort := by
  obtain ⟨rest, hcs, hwritten⟩ := Numeral.ofStart_spec cs
  unfold readNumber at h
  simp only at h
  split at h
  · cases h
  · next v hv =>
    split at h
    · cases h
      have hne : (Numeral.ofStart cs).whole ≠ [] := by
        intro hnil
        rw [Numeral.value, hnil] at hv
        cases hv
      obtain ⟨hvalue, hshort⟩ := Numeral.of_value (hwritten hne) hv
      exact ⟨_, (List.prefix_iff_eq_append.1 ⟨rest, hcs.symm⟩).symm, hvalue, hshort⟩
    · cases h

/-- No value that is written by name is an integer. -/
theorem isShort_of_mem_names {name : List Char} {v : Raw} (h : (name, v) ∈ names) : v.isShort := by
  have all : ∀ entry ∈ names, entry.2.isShort := by decide
  exact all _ h

/-! ## Values -/

/-- From a text that is no longer than a bound, values are read as they are written. -/
def ReadsSoundly (n : Nat) : Prop :=
  ∀ cs : List Char, cs.length ≤ n → ∀ p : Part Raw cs.length, readValue cs = .ok p →
    ∃ used, cs = used ++ p.rest ∧ IsValue used p.value ∧ p.value.isShort

section
variable {n : Nat} (hn : ReadsSoundly n)
include hn

theorem of_readItems {cs : List Char} (hcs : cs.length ≤ n) {p : Part (List Raw) cs.length}
    (h : readItems cs = .ok p) {before : List Char} (hbefore : AreBlank before) :
    ∃ used, before ++ cs = used ++ ']' :: p.rest ∧ AreItems used p.value ∧ Raw.areShort p.value := by
  obtain ⟨m, hm⟩ : ∃ m, cs.length = m := ⟨_, rfl⟩
  induction m using Nat.strongRecOn generalizing cs before with
  | ind m ih =>
    subst hm
    rw [readItems] at h
    split at h
    · cases h
    · next v hv =>
      obtain ⟨used, hused, hvalue, hshort⟩ := hn cs hcs v hv
      obtain ⟨after, hafter, hblanks⟩ := exists_blanks v.rest
      split at h
      · next rest hrest =>
        cases h
        refine ⟨before ++ (used ++ after), ?_, .last hbefore hvalue hblanks, by simp [Raw.areShort, hshort]⟩
        calc before ++ cs
          _ = before ++ (used ++ (after ++ ']' :: rest)) := by rw [← hrest, ← hafter]; exact congrArg _ hused
          _ = before ++ (used ++ after) ++ ']' :: rest := by simp
      · next rest hrest =>
        obtain ⟨next, hnext, hnextBlanks⟩ := exists_blanks rest
        have hlength : (skipBlanks rest).length < cs.length := by
          have hleft := length_skipBlanks_le v.rest
          rw [hrest, List.length_cons] at hleft
          exact (length_skipBlanks_le rest).trans_lt (hleft.trans v.shorter.le)
        split at h
        · cases h
        · next q hq =>
          cases h
          obtain ⟨others, hothers, hitems, hshorts⟩ := ih _ hlength (hlength.le.trans hcs) hq hnextBlanks rfl
          refine ⟨before ++ (used ++ (after ++ ',' :: others)), ?_, .more hbefore hvalue hblanks hitems,
            by simp [Raw.areShort, hshort, hshorts]⟩
          calc before ++ cs
            _ = before ++ (used ++ (after ++ ',' :: rest)) := by rw [← hrest, ← hafter]; exact congrArg _ hused
            _ = before ++ (used ++ (after ++ ',' :: (others ++ ']' :: q.rest))) := by rw [← hothers, ← hnext]
            _ = before ++ (used ++ (after ++ ',' :: others)) ++ ']' :: q.rest := by simp
      · cases h

/-- One step of reading members: the member in front, and behind it the closing brace or a comma and more members. -/
theorem step_of_readMembers {cs : List Char} (hcs : cs.length ≤ n) {p : Part (List (Points × Raw)) cs.length}
    (h : readMembers cs = .ok p) :
    ∃ key ps colon value used v after left,
      cs = '"' :: (key ++ '"' :: (colon ++ ':' :: (value ++ (used ++ (after ++ left))))) ∧
      IsString key ps ∧ AreBlank colon ∧ AreBlank value ∧ IsValue used v ∧ v.isShort ∧ AreBlank after ∧
      (left = '}' :: p.rest ∧ p.value = [(ps.pair, v)] ∨
        ∃ (rest : List Char) (q : Part (List (Points × Raw)) (skipBlanks rest).length), left = ',' :: rest ∧
          (skipBlanks rest).length < cs.length ∧ readMembers (skipBlanks rest) = .ok q ∧
          p.value = (ps.pair, v) :: q.value ∧ p.rest = q.rest) := by
  rw [readMembers.eq_def] at h
  split at h
  · next text =>
    split at h
    · cases h
    · next k hk =>
      obtain ⟨key, ps, htext, hkey, hps⟩ := of_readString hk
      obtain ⟨colon, hcolon, hcolonBlanks⟩ := exists_blanks k.rest
      split at h
      · next rest hrest =>
        obtain ⟨value, hvalueText, hvalueBlanks⟩ := exists_blanks rest
        have hlength : (skipBlanks rest).length < text.length := by
          have hcolonLength := length_skipBlanks_le k.rest
          rw [hrest, List.length_cons] at hcolonLength
          exact (length_skipBlanks_le rest).trans_lt (hcolonLength.trans k.shorter.le)
        split at h
        · cases h
        · next v hv =>
          obtain ⟨used, hused, hvalue, hshort⟩ := hn _ (hlength.le.trans (Nat.le_of_succ_le hcs)) v hv
          obtain ⟨after, hafter, hblanks⟩ := exists_blanks v.rest
          have hmember : '"' :: text =
              '"' :: (key ++ '"' :: (colon ++ ':' :: (value ++ (used ++ (after ++ skipBlanks v.rest))))) := by
            rw [← hafter, ← hused, ← hvalueText, ← hrest, ← hcolon, ← htext]
          refine ⟨key, ps, colon, value, used, v.value, after, skipBlanks v.rest, hmember, hkey, hcolonBlanks,
            hvalueBlanks, hvalue, hshort, hblanks, ?_⟩
          split at h
          · next left hleft =>
            cases h
            exact .inl ⟨hleft, by rw [hps]⟩
          · next left hleft =>
            have hless : (skipBlanks left).length < ('"' :: text).length := by
              have hleftLength := length_skipBlanks_le v.rest
              rw [hleft, List.length_cons] at hleftLength
              exact (length_skipBlanks_le left).trans_lt
                (hleftLength.trans (v.shorter.le.trans (hlength.le.trans (Nat.le_succ _))))
            split at h
            · cases h
            · next q hq =>
              cases h
              exact .inr ⟨left, q, hleft, hless, hq, by rw [hps], rfl⟩
          · cases h
      · cases h
  · cases h

theorem of_readMembers {cs : List Char} (hcs : cs.length ≤ n) {p : Part (List (Points × Raw)) cs.length}
    (h : readMembers cs = .ok p) {before : List Char} (hbefore : AreBlank before) :
    ∃ used, before ++ cs = used ++ '}' :: p.rest ∧ AreMembers used p.value ∧ Raw.membersAreShort p.value := by
  obtain ⟨m, hm⟩ : ∃ m, cs.length = m := ⟨_, rfl⟩
  induction m using Nat.strongRecOn generalizing cs before with
  | ind m ih =>
    subst hm
    obtain ⟨key, ps, colon, value, used, v, after, left, htext, hkey, hcolon, hvalueBlanks, hvalue, hshort, hblanks,
      ⟨hleft, hp⟩ | ⟨rest, q, hleft, hless, hq, hp, hrest⟩⟩ := step_of_readMembers hn hcs h
    · refine ⟨before ++ '"' :: (key ++ '"' :: (colon ++ ':' :: (value ++ (used ++ after)))), ?_,
        hp ▸ .last hbefore hkey hcolon hvalueBlanks hvalue hblanks, by simp [hp, Raw.membersAreShort, hshort]⟩
      refine (congrArg (before ++ ·) htext).trans ?_
      rw [hleft]
      simp
    · obtain ⟨next, hnext, hnextBlanks⟩ := exists_blanks rest
      obtain ⟨others, hothers, hmembers, hshorts⟩ := ih _ hless (hless.le.trans hcs) hq hnextBlanks rfl
      refine ⟨before ++ '"' :: (key ++ '"' :: (colon ++ ':' :: (value ++ (used ++ (after ++ ',' :: others))))), ?_,
        hp ▸ .more hbefore hkey hcolon hvalueBlanks hvalue hblanks hmembers,
        by simp [hp, Raw.membersAreShort, hshort, hshorts]⟩
      refine (congrArg (before ++ ·) htext).trans ?_
      rw [hleft, hnext, hothers, hrest]
      simp

theorem of_readArray {rest : List Char} (hrest : rest.length ≤ n) {p : Part Raw ('[' :: rest).length}
    (h : readValue ('[' :: rest) = .ok p) :
    ∃ used, '[' :: rest = used ++ p.rest ∧ IsValue used p.value ∧ p.value.isShort := by
  obtain ⟨blanks, hblanks, areBlank⟩ := exists_blanks rest
  rw [readValue] at h
  split at h
  · next after hafter =>
    cases h
    refine ⟨'[' :: (blanks ++ [']']), ?_, .noItems areBlank, rfl⟩
    calc '[' :: rest
      _ = '[' :: (blanks ++ ']' :: after) := by rw [← hafter, ← hblanks]
      _ = '[' :: (blanks ++ [']']) ++ after := by simp
  · split at h
    · cases h
    · next q hq =>
      cases h
      obtain ⟨used, hused, hitems, hshort⟩ := of_readItems hn ((length_skipBlanks_le rest).trans hrest) hq areBlank
      refine ⟨'[' :: (used ++ [']']), ?_, .items hitems, hshort⟩
      calc '[' :: rest
        _ = '[' :: (used ++ ']' :: q.rest) := congrArg _ (hblanks.trans hused)
        _ = '[' :: (used ++ [']']) ++ q.rest := by simp

theorem of_readObject {rest : List Char} (hrest : rest.length ≤ n) {p : Part Raw ('{' :: rest).length}
    (h : readValue ('{' :: rest) = .ok p) :
    ∃ used, '{' :: rest = used ++ p.rest ∧ IsValue used p.value ∧ p.value.isShort := by
  obtain ⟨blanks, hblanks, areBlank⟩ := exists_blanks rest
  rw [readValue] at h
  split at h
  · next after hafter =>
    cases h
    refine ⟨'{' :: (blanks ++ ['}']), ?_, .noMembers areBlank, rfl⟩
    calc '{' :: rest
      _ = '{' :: (blanks ++ '}' :: after) := by rw [← hafter, ← hblanks]
      _ = '{' :: (blanks ++ ['}']) ++ after := by simp
  · split at h
    · cases h
    · next q hq =>
      cases h
      obtain ⟨used, hused, hmembers, hshort⟩ := of_readMembers hn ((length_skipBlanks_le rest).trans hrest) hq areBlank
      refine ⟨'{' :: (used ++ ['}']), ?_, .members hmembers, hshort⟩
      calc '{' :: rest
        _ = '{' :: (used ++ '}' :: q.rest) := congrArg _ (hblanks.trans hused)
        _ = '{' :: (used ++ ['}']) ++ q.rest := by simp

end

/-- **Values.**  What a value is read from is written as it. -/
theorem of_readValue (n : Nat) : ReadsSoundly n := by
  induction n with
  | zero =>
    intro cs hcs p
    exact absurd p.shorter (by omega)
  | succ n ih =>
    intro cs hcs p h
    have hread := h
    rw [readValue.eq_def] at h
    split at h
    · cases h
    · next rest =>
      split at h
      · cases h
      · next q hq =>
        cases h
        obtain ⟨used, ps, hrest, hstring, hps⟩ := of_readString hq
        refine ⟨'"' :: (used ++ ['"']), ?_, hps ▸ .text hstring, rfl⟩
        calc '"' :: rest
          _ = '"' :: (used ++ '"' :: q.rest) := congrArg _ hrest
          _ = '"' :: (used ++ ['"']) ++ q.rest := by simp
    · exact of_readArray ih (Nat.le_of_succ_le_succ hcs) hread
    · exact of_readObject ih (Nat.le_of_succ_le_succ hcs) hread
    · split at h
      · next q hq =>
        cases h
        obtain ⟨name, hmem, hname⟩ := of_readName? hq
        exact ⟨name, hname, .name hmem, isShort_of_mem_names hmem⟩
      · exact of_readNumber h

/-- **Soundness.**  What a text is read as is what it is written as, and no integer in it is too long. -/
theorem denotes_of_ofText {s : String} {v : Raw} (h : Raw.ofText s = .ok v) : Denotes s v ∧ v.isShort := by
  unfold Raw.ofText at h
  split at h
  · cases h
  · next p hp =>
    split at h
    · next hempty =>
      cases h
      obtain ⟨before, hbefore, hbeforeBlanks⟩ := exists_blanks s.toList
      obtain ⟨used, hused, hvalue, hshort⟩ := of_readValue _ _ le_rfl p hp
      obtain ⟨after, hafter, hafterBlanks⟩ := exists_blanks p.rest
      rw [List.isEmpty_iff.1 hempty, List.append_nil] at hafter
      rw [hused, hafter] at hbefore
      exact ⟨⟨before, used, after, hbefore, hbeforeBlanks, hvalue, hafterBlanks⟩, hshort⟩
    · cases h

end PlanarMath.Json
