import PlanarMath.Proofs.Json.Soundness

/-!
# What is written is read

A text that is written as a value is read as that value, and nothing behind it is taken, unless an integer in it is
too long; then the reader says so.  With soundness this makes the grammar and the reader agree: a text is read
exactly as what it is written as, and it fails for the length of an integer or because it is not written at all.

    [1, "a"]      read as the value        [1, 99..9, "a"]      fails, too many digits        [1,]      malformed
-/

namespace PlanarMath.Json

open Text

/-- From a text a reader reads a value and leaves a rest. -/
def Gives {α : Type} (read : (cs : List Char) → Reading α cs.length) (cs : List Char) (a : α)
    (rest : List Char) : Prop :=
  ∃ p, read cs = .ok p ∧ p.value = a ∧ p.rest = rest

/-- What a reader makes of a text that is written as a value, which has short integers or not. -/
structure Answers {α : Type} (read : (cs : List Char) → Reading α cs.length) (cs : List Char) (a : α)
    (short : Bool) (rest : List Char) : Prop where
  gives : short = true → Gives read cs a rest
  fails : short = false → ∃ count, read cs = .error (.tooManyDigits count)

theorem Answers.of_gives {α : Type} {read : (cs : List Char) → Reading α cs.length} {cs : List Char} {a : α}
    {rest : List Char} (h : Gives read cs a rest) : Answers read cs a true rest :=
  ⟨fun _ => h, nofun⟩

/-! ## Blanks -/

theorem skipBlanks_append {blanks : List Char} (h : AreBlank blanks) (cs : List Char) :
    skipBlanks (blanks ++ cs) = skipBlanks cs := by
  induction blanks with
  | nil => rfl
  | cons b blanks ih =>
    obtain ⟨hb, hblanks⟩ := List.forall_mem_cons.1 h
    rw [List.cons_append, skipBlanks, if_pos hb, ih hblanks]

theorem skipBlanks_cons {c : Char} (h : isBlank c = false) (cs : List Char) : skipBlanks (c :: cs) = c :: cs := by
  rw [skipBlanks, h]
  rfl

theorem skipBlanks_eq_nil {blanks : List Char} (h : AreBlank blanks) : skipBlanks blanks = [] := by
  rw [← List.append_nil blanks, skipBlanks_append h]
  rfl

theorem stopsNumber_blanks {blanks : List Char} (h : AreBlank blanks) {cs : List Char} (hcs : StopsNumber cs) :
    StopsNumber (blanks ++ cs) := by
  cases blanks with
  | nil => exact hcs
  | cons b blanks =>
    have hb : isBlank b := h b List.mem_cons_self
    simp only [isBlank, Bool.or_eq_true, beq_iff_eq] at hb
    intro c hc
    obtain rfl : b = c := Option.some.inj hc
    rcases hb with ((rfl | rfl) | rfl) | rfl <;> decide

/-! ## Strings -/

section
variable {c d : Char} {cs rest : List Char} {ps : Points} {point : Point}

theorem gives_quote (cs : List Char) : Gives readPoints ('"' :: cs) [] cs := by
  unfold Gives
  rw [readPoints]
  exact ⟨_, rfl, rfl, rfl⟩

theorem gives_escape (hc : escape? d = some c) (h : Gives readPoints cs ps rest) :
    Gives readPoints ('\\' :: d :: cs) (.ofChar c :: ps) rest := by
  obtain ⟨p, h, rfl, rfl⟩ := h
  have hd : d ≠ 'u' := by
    rintro rfl
    cases hc
  unfold Gives
  rw [readPoints, hc, h]
  · exact ⟨_, rfl, rfl, rfl⟩
  · exact hd

theorem gives_unit {a b c d : Char} (hunit : unit? [a, b, c, d] = some point) (h : Gives readPoints cs ps rest) :
    Gives readPoints ('\\' :: 'u' :: a :: b :: c :: d :: cs) (point :: ps) rest := by
  obtain ⟨p, h, rfl, rfl⟩ := h
  have hunit' : unit? (a :: b :: c :: d :: cs) = some point := hunit
  have h' : readPoints ((a :: b :: c :: d :: cs).drop 4) = .ok p := h
  unfold Gives
  rw [readPoints, hunit', h']
  exact ⟨_, rfl, rfl, rfl⟩

theorem gives_plain (hquote : c ≠ '"') (hslash : c ≠ '\\') (hc : 0x20 ≤ c.toNat) (h : Gives readPoints cs ps rest) :
    Gives readPoints (c :: cs) (.ofChar c :: ps) rest := by
  obtain ⟨p, h, rfl, rfl⟩ := h
  unfold Gives
  rw [readPoints, if_neg (not_or.2 ⟨hslash, Nat.not_lt.2 hc⟩), h]
  · exact ⟨_, rfl, rfl, rfl⟩
  · exact hquote
  · exact fun _ he => absurd he hslash
  · exact fun _ _ he => absurd he hslash

theorem IsString.gives (h : IsString cs ps) (rest : List Char) : Gives readPoints (cs ++ '"' :: rest) ps rest := by
  induction h with
  | nil => exact gives_quote rest
  | plain hquote hslash hc _ ih => exact gives_plain hquote hslash hc ih
  | escape hc _ ih => exact gives_escape hc ih
  | unit hunit _ ih => exact gives_unit hunit ih

theorem IsString.gives_pair (h : IsString cs ps) (rest : List Char) :
    Gives readString (cs ++ '"' :: rest) ps.pair rest := by
  obtain ⟨p, hp, hvalue, hrest⟩ := h.gives rest
  unfold Gives readString
  rw [hp]
  exact ⟨_, rfl, congrArg Points.pair hvalue, hrest⟩

end

/-! ## Names -/

theorem after?_append (bs cs : List Char) : after? bs (bs ++ cs) = some cs := by
  induction bs with
  | nil => rfl
  | cons b bs ih => rw [List.cons_append, after?, if_pos rfl, ih]

theorem readName?_here {name : List Char} (hname : name ≠ []) (v : Raw) (table : List (List Char × Raw))
    (cs : List Char) : ∃ p, readName? ((name, v) :: table) (name ++ cs) = some p ∧ p.value = v ∧ p.rest = cs := by
  rw [readName?]
  split
  · next rest h =>
    rw [after?_append, Option.some.injEq] at h
    rw [dif_neg hname]
    exact ⟨_, rfl, rfl, h.symm⟩
  · next h =>
    rw [after?_append] at h
    cases h

theorem readName?_next {name cs : List Char} (h : after? name cs = none) (v : Raw)
    (table : List (List Char × Raw)) : readName? ((name, v) :: table) cs = readName? table cs := by
  rw [readName?]
  split
  · next hs => rw [h] at hs; cases hs
  · rfl

/-- A name is found where a text starts with it, among names that start with different characters. -/
theorem readName?_of_mem {table : List (List Char × Raw)} (hne : ∀ e ∈ table, e.1 ≠ [])
    (hd : table.Pairwise fun a b => a.1.head? ≠ b.1.head?) {name : List Char} {v : Raw}
    (h : (name, v) ∈ table) (cs : List Char) :
    ∃ p, readName? table (name ++ cs) = some p ∧ p.value = v ∧ p.rest = cs := by
  induction table with
  | nil => exact absurd h List.not_mem_nil
  | cons e table ih =>
    obtain ⟨he, htable⟩ := List.forall_mem_cons.1 hne
    obtain ⟨hfirst, hrest⟩ := List.pairwise_cons.1 hd
    rcases List.mem_cons.1 h with rfl | hmem
    · exact readName?_here he v table cs
    · obtain ⟨b, bs, hb⟩ := List.exists_cons_of_ne_nil he
      obtain ⟨c, ns, rfl⟩ := List.exists_cons_of_ne_nil (htable _ hmem)
      have hbc : b ≠ c := by simpa [hb] using hfirst _ hmem
      have hnone : after? e.1 (c :: ns ++ cs) = none := by rw [hb, List.cons_append, after?, if_neg hbc]
      rw [readName?_next hnone]
      exact ih htable hrest hmem

/-- Names start with characters that start nothing else, but for a sign. -/
theorem exists_start_of_mem_names {name : List Char} {v : Raw} (h : (name, v) ∈ names) :
    ∃ c rest, name = c :: rest ∧ c ≠ '"' ∧ c ≠ '[' ∧ c ≠ '{' ∧ c ≠ ']' ∧ c ≠ '}' ∧ isBlank c = false := by
  have all : ∀ e ∈ names, ∃ c rest, e.1 = c :: rest ∧
      c ≠ '"' ∧ c ≠ '[' ∧ c ≠ '{' ∧ c ≠ ']' ∧ c ≠ '}' ∧ isBlank c = false := by
    simp [names, isBlank]
  exact all _ h

/-- The values that are written by name are read by name. -/
theorem gives_name {name : List Char} {v : Raw} (h : (name, v) ∈ names) (cs : List Char) :
    Gives readValue (name ++ cs) v cs := by
  obtain ⟨c, rest, hname, hquote, harray, hobject, -⟩ := exists_start_of_mem_names h
  obtain rfl : name = c :: rest := hname
  obtain ⟨p, hp, hv, hr⟩ : ∃ p, readName? names (c :: (rest ++ cs)) = some p ∧ p.value = v ∧ p.rest = cs :=
    readName?_of_mem (by decide) (by decide) h cs
  unfold Gives
  rw [List.cons_append, readValue, hp]
  · exact ⟨p, rfl, hv, hr⟩
  · exact hquote
  · exact harray
  · exact hobject

/-! ## Numbers -/

theorem readName?_eq_none {table : List (List Char × Raw)} {cs : List Char}
    (h : ∀ e ∈ table, after? e.1 cs = none) : readName? table cs = none := by
  induction table with
  | nil => rfl
  | cons e table ih =>
    obtain ⟨he, htable⟩ := List.forall_mem_cons.1 h
    rw [readName?_next he, ih htable]

/-- No name starts like a number. -/
theorem after?_names {c : Char} (hc : isAsciiDigit c) (cs : List Char) :
    ∀ e ∈ names, after? e.1 (c :: cs) = none ∧ after? e.1 ('-' :: c :: cs) = none := by
  have ne : ∀ {d : Char}, isAsciiDigit d = false → d ≠ c := fun hd => (ne_of_isAsciiDigit hc hd).symm
  simp [names, after?, ne (d := 'n') rfl, ne (d := 't') rfl, ne (d := 'f') rfl, ne (d := 'N') rfl,
    ne (d := 'I') rfl, ne (d := '-') rfl]

/-- What starts like a number is read as a number. -/
theorem readValue_eq_readNumber {c : Char} (hc : isAsciiDigit c) (cs : List Char) :
    readValue (c :: cs) = readNumber (c :: cs) ∧ readValue ('-' :: c :: cs) = readNumber ('-' :: c :: cs) := by
  constructor
  · rw [readValue, readName?_eq_none fun e he => (after?_names hc cs e he).1]
    · exact ne_of_isAsciiDigit hc rfl
    · exact ne_of_isAsciiDigit hc rfl
    · exact ne_of_isAsciiDigit hc rfl
  · rw [readValue, readName?_eq_none fun e he => (after?_names hc cs e he).2]
    · decide
    · decide
    · decide

section
variable {n : Numeral} (h : n.IsWritten)
include h

/-- A numeral starts with a sign, or with its first digit. -/
theorem Numeral.exists_start (cs : List Char) : ∃ d ds, isAsciiDigit d ∧
    (n.chars ++ cs = d :: ds ∨ n.chars ++ cs = '-' :: d :: ds) := by
  obtain ⟨d, ds, hd, hdigit⟩ := h.exists_digit
  refine ⟨d, ds ++ (n.fraction ++ n.exponent) ++ cs, hdigit, ?_⟩
  rw [n.chars_eq, hd]
  cases n.negative with
  | true => exact .inr rfl
  | false => exact .inl rfl

theorem readValue_chars (cs : List Char) : readValue (n.chars ++ cs) = readNumber (n.chars ++ cs) := by
  obtain ⟨d, ds, hd, hstart | hstart⟩ := Numeral.exists_start h cs
  · rw [hstart]
    exact (readValue_eq_readNumber hd ds).1
  · rw [hstart]
    exact (readValue_eq_readNumber hd ds).2

theorem gives_number {cs : List Char} (hcs : StopsNumber cs) {v : Raw} (hv : n.value = .ok v) :
    Gives readValue (n.chars ++ cs) v cs := by
  have hpos : 0 < n.chars.length := by
    obtain ⟨d, ds, -, hstart | hstart⟩ := Numeral.exists_start h []
    · rw [List.append_nil] at hstart
      simp [hstart]
    · rw [List.append_nil] at hstart
      simp [hstart]
  unfold Gives
  rw [readValue_chars h]
  unfold readNumber
  simp only [Numeral.ofStart_append h hcs, hv, List.drop_left]
  rw [dif_pos]
  · exact ⟨_, rfl, rfl, rfl⟩
  · rw [List.length_append]
    omega

theorem fails_number {cs : List Char} (hcs : StopsNumber cs) {e : ReadError} (he : n.value = .error e) :
    readValue (n.chars ++ cs) = .error e := by
  rw [readValue_chars h]
  unfold readNumber
  simp only [Numeral.ofStart_append h hcs, he]

/-- An integer is read unless it is too long. -/
theorem answers_int (hint : n.IsInteger) {cs : List Char} (hcs : StopsNumber cs) :
    Answers readValue (n.chars ++ cs) (.int n.integer) (Literal.isShort n.integer) cs where
  gives hshort := gives_number h hcs (by rw [Numeral.value_int h hint, if_pos hshort])
  fails hlong := ⟨_, fails_number h hcs (by rw [Numeral.value_int h hint, hlong]; rfl)⟩

end

/-! ## Arrays -/

section
variable {cs ds blanks rest : List Char} {v : Raw} {vs : List Raw} {s t : Bool}

theorem gives_noItems (hb : AreBlank blanks) (rest : List Char) :
    Gives readValue ('[' :: (blanks ++ ']' :: rest)) (.array []) rest := by
  have hskip : skipBlanks (blanks ++ ']' :: rest) = ']' :: rest := by
    rw [skipBlanks_append hb, skipBlanks_cons rfl]
  unfold Gives
  rw [readValue]
  split
  · next after hs =>
    obtain rfl : rest = after := (List.cons.inj (hskip.symm.trans hs)).2
    exact ⟨_, rfl, rfl, rfl⟩
  · next hne => exact absurd hskip (hne rest)

theorem answers_array (hcs : (skipBlanks cs).head? ≠ some ']') (h : Answers readItems (skipBlanks cs) vs s rest) :
    Answers readValue ('[' :: cs) (.array vs) s rest where
  gives hs := by
    obtain ⟨p, hp, rfl, rfl⟩ := h.gives hs
    unfold Gives
    rw [readValue]
    split
    · next after hs =>
      rw [hs] at hcs
      exact absurd rfl hcs
    · rw [hp]
      exact ⟨_, rfl, rfl, rfl⟩
  fails hs := by
    obtain ⟨count, he⟩ := h.fails hs
    rw [readValue]
    split
    · next after hs =>
      rw [hs] at hcs
      exact absurd rfl hcs
    · rw [he]
      exact ⟨count, rfl⟩

theorem answers_items_last (h : Answers readValue cs v s (blanks ++ ']' :: rest)) (hb : AreBlank blanks) :
    Answers readItems cs [v] s rest where
  gives hs := by
    obtain ⟨p, hp, rfl, hrest⟩ := h.gives hs
    have hskip : skipBlanks p.rest = ']' :: rest := by rw [hrest, skipBlanks_append hb, skipBlanks_cons rfl]
    unfold Gives
    rw [readItems, hp]
    simp only
    split
    · next after hafter =>
      obtain rfl : rest = after := (List.cons.inj (hskip.symm.trans hafter)).2
      exact ⟨_, rfl, rfl, rfl⟩
    · next after hafter =>
      rw [hskip] at hafter
      cases hafter
    · next hne _ => exact absurd hskip (hne rest)
  fails hs := by
    obtain ⟨count, he⟩ := h.fails hs
    rw [readItems, he]
    exact ⟨count, rfl⟩

/-- Behind a comma the items that follow decide. -/
theorem readItems_comma {p : Part Raw cs.length} (hp : readValue cs = .ok p) (hskip : skipBlanks p.rest = ',' :: ds) :
    (∀ q, readItems (skipBlanks ds) = .ok q → Gives readItems cs (p.value :: q.value) q.rest) ∧
      ∀ e, readItems (skipBlanks ds) = .error e → readItems cs = .error e := by
  unfold Gives
  rw [readItems.eq_def cs, hp]
  simp only
  split
  · next after hafter =>
    rw [hskip] at hafter
    cases hafter
  · next after hafter =>
    obtain rfl : ds = after := (List.cons.inj (hskip.symm.trans hafter)).2
    constructor
    · intro q hq
      rw [hq]
      exact ⟨_, rfl, rfl, rfl⟩
    · intro e he
      rw [he]
  · next hne => exact absurd hskip (hne ds)

theorem answers_items_more (h : Answers readValue cs v s (blanks ++ ',' :: ds)) (hb : AreBlank blanks)
    (hmore : Answers readItems (skipBlanks ds) vs t rest) : Answers readItems cs (v :: vs) (s && t) rest where
  gives hst := by
    obtain ⟨hs, ht⟩ := Bool.and_eq_true_iff.1 hst
    obtain ⟨p, hp, rfl, hrest⟩ := h.gives hs
    obtain ⟨q, hq, rfl, rfl⟩ := hmore.gives ht
    have hskip : skipBlanks p.rest = ',' :: ds := by rw [hrest, skipBlanks_append hb, skipBlanks_cons rfl]
    exact (readItems_comma hp hskip).1 q hq
  fails hst := by
    cases hs : s with
    | false =>
      obtain ⟨count, he⟩ := h.fails hs
      rw [readItems, he]
      exact ⟨count, rfl⟩
    | true =>
      obtain ⟨p, hp, rfl, hrest⟩ := h.gives hs
      rw [hs, Bool.true_and] at hst
      obtain ⟨count, he⟩ := hmore.fails hst
      have hskip : skipBlanks p.rest = ',' :: ds := by rw [hrest, skipBlanks_append hb, skipBlanks_cons rfl]
      exact ⟨count, (readItems_comma hp hskip).2 _ he⟩

end

/-! ## Objects -/

section
variable {cs ds key colon value blanks rest : List Char} {ps : Points} {v : Raw} {ms : List (Points × Raw)}
  {s t : Bool}

theorem gives_noMembers (hb : AreBlank blanks) (rest : List Char) :
    Gives readValue ('{' :: (blanks ++ '}' :: rest)) (.object []) rest := by
  have hskip : skipBlanks (blanks ++ '}' :: rest) = '}' :: rest := by
    rw [skipBlanks_append hb, skipBlanks_cons rfl]
  unfold Gives
  rw [readValue]
  split
  · next after hs =>
    obtain rfl : rest = after := (List.cons.inj (hskip.symm.trans hs)).2
    exact ⟨_, rfl, rfl, rfl⟩
  · next hne => exact absurd hskip (hne rest)

theorem answers_object (hcs : (skipBlanks cs).head? ≠ some '}')
    (h : Answers readMembers (skipBlanks cs) ms s rest) : Answers readValue ('{' :: cs) (.object ms) s rest where
  gives hs := by
    obtain ⟨p, hp, rfl, rfl⟩ := h.gives hs
    unfold Gives
    rw [readValue]
    split
    · next after hs =>
      rw [hs] at hcs
      exact absurd rfl hcs
    · rw [hp]
      exact ⟨_, rfl, rfl, rfl⟩
  fails hs := by
    obtain ⟨count, he⟩ := h.fails hs
    rw [readValue]
    split
    · next after hs =>
      rw [hs] at hcs
      exact absurd rfl hcs
    · rw [he]
      exact ⟨count, rfl⟩

/-- What the reader makes of a member, by its value and what stands behind it. -/
theorem readMembers_cases {text : List Char} {k : Part Points text.length} (hk : readString text = .ok k)
    (hcolon : skipBlanks k.rest = ':' :: cs) :
    (∀ e, readValue (skipBlanks cs) = .error e → readMembers ('"' :: text) = .error e) ∧
    ∀ p, readValue (skipBlanks cs) = .ok p →
      (∀ rest, skipBlanks p.rest = '}' :: rest → Gives readMembers ('"' :: text) [(k.value, p.value)] rest) ∧
      ∀ ds, skipBlanks p.rest = ',' :: ds →
        (∀ q, readMembers (skipBlanks ds) = .ok q →
          Gives readMembers ('"' :: text) ((k.value, p.value) :: q.value) q.rest) ∧
        ∀ e, readMembers (skipBlanks ds) = .error e → readMembers ('"' :: text) = .error e := by
  unfold Gives
  rw [readMembers, hk]
  simp only
  split
  · next after hafter =>
    obtain rfl : cs = after := (List.cons.inj (hcolon.symm.trans hafter)).2
    refine ⟨fun e he => by rw [he], fun p hp => ?_⟩
    rw [hp]
    simp only
    refine ⟨fun rest hrest => ?_, fun ds hds => ?_⟩
    · split
      · next left hleft =>
        obtain rfl : rest = left := (List.cons.inj (hrest.symm.trans hleft)).2
        exact ⟨_, rfl, rfl, rfl⟩
      · next left hleft =>
        rw [hrest] at hleft
        cases hleft
      · next hne _ => exact absurd hrest (hne rest)
    · split
      · next left hleft =>
        rw [hds] at hleft
        cases hleft
      · next left hleft =>
        obtain rfl : ds = left := (List.cons.inj (hds.symm.trans hleft)).2
        constructor
        · intro q hq
          rw [hq]
          exact ⟨_, rfl, rfl, rfl⟩
        · intro e he
          rw [he]
      · next hne => exact absurd hds (hne ds)
  · next hne => exact absurd hcolon (hne cs)

theorem answers_members_last (hkey : IsString key ps) (hc : AreBlank colon) (hv : AreBlank value)
    (h : Answers readValue (skipBlanks cs) v s (blanks ++ '}' :: rest)) (hb : AreBlank blanks) :
    Answers readMembers ('"' :: (key ++ '"' :: (colon ++ ':' :: (value ++ cs)))) [(ps.pair, v)] s rest := by
  obtain ⟨k, hk, hvalue, hrest⟩ := hkey.gives_pair (colon ++ ':' :: (value ++ cs))
  have hcolon : skipBlanks k.rest = ':' :: (value ++ cs) := by rw [hrest, skipBlanks_append hc, skipBlanks_cons rfl]
  obtain ⟨herror, hok⟩ := readMembers_cases hk hcolon
  rw [skipBlanks_append hv] at herror hok
  constructor
  · intro hs
    obtain ⟨p, hp, rfl, hleft⟩ := h.gives hs
    rw [← hvalue]
    exact (hok p hp).1 rest (by rw [hleft, skipBlanks_append hb, skipBlanks_cons rfl])
  · intro hs
    obtain ⟨count, he⟩ := h.fails hs
    exact ⟨count, herror _ he⟩

theorem answers_members_more (hkey : IsString key ps) (hc : AreBlank colon) (hv : AreBlank value)
    (h : Answers readValue (skipBlanks cs) v s (blanks ++ ',' :: ds)) (hb : AreBlank blanks)
    (hmore : Answers readMembers (skipBlanks ds) ms t rest) :
    Answers readMembers ('"' :: (key ++ '"' :: (colon ++ ':' :: (value ++ cs)))) ((ps.pair, v) :: ms) (s && t)
      rest := by
  obtain ⟨k, hk, hvalue, hrest⟩ := hkey.gives_pair (colon ++ ':' :: (value ++ cs))
  have hcolon : skipBlanks k.rest = ':' :: (value ++ cs) := by rw [hrest, skipBlanks_append hc, skipBlanks_cons rfl]
  obtain ⟨herror, hok⟩ := readMembers_cases hk hcolon
  rw [skipBlanks_append hv] at herror hok
  have hskip : ∀ {p : Part Raw (skipBlanks cs).length}, p.rest = blanks ++ ',' :: ds →
      skipBlanks p.rest = ',' :: ds := fun hp => by rw [hp, skipBlanks_append hb, skipBlanks_cons rfl]
  constructor
  · intro hst
    obtain ⟨hs, ht⟩ := Bool.and_eq_true_iff.1 hst
    obtain ⟨p, hp, rfl, hleft⟩ := h.gives hs
    obtain ⟨q, hq, rfl, rfl⟩ := hmore.gives ht
    rw [← hvalue]
    exact ((hok p hp).2 ds (hskip hleft)).1 q hq
  · intro hst
    cases hs : s with
    | false =>
      obtain ⟨count, he⟩ := h.fails hs
      exact ⟨count, herror _ he⟩
    | true =>
      obtain ⟨p, hp, rfl, hleft⟩ := h.gives hs
      rw [hs, Bool.true_and] at hst
      obtain ⟨count, he⟩ := hmore.fails hst
      exact ⟨count, ((hok p hp).2 ds (hskip hleft)).2 _ he⟩

end

/-! ## Values -/

theorem isBlank_of_isAsciiDigit {c : Char} (hc : isAsciiDigit c) : isBlank c = false := by
  have ne : ∀ {d : Char}, isAsciiDigit d = false → c ≠ d := ne_of_isAsciiDigit hc
  simp [isBlank, ne (d := ' ') rfl, ne (d := '\t') rfl, ne (d := '\n') rfl, ne (d := '\r') rfl]

/-- A value starts with a character that is no blank and closes nothing. -/
theorem IsValue.exists_start {cs : List Char} {v : Raw} (h : IsValue cs v) :
    ∃ c rest, cs = c :: rest ∧ isBlank c = false ∧ c ≠ ']' := by
  have number : ∀ {n : Numeral}, n.IsWritten → ∃ c rest, n.chars = c :: rest ∧ isBlank c = false ∧ c ≠ ']' := by
    intro n hn
    obtain ⟨d, ds, hd, hstart | hstart⟩ := Numeral.exists_start hn []
    · rw [List.append_nil] at hstart
      exact ⟨d, ds, hstart, isBlank_of_isAsciiDigit hd, ne_of_isAsciiDigit hd rfl⟩
    · rw [List.append_nil] at hstart
      exact ⟨'-', d :: ds, hstart, rfl, by decide⟩
  cases h with
  | name hmem =>
    obtain ⟨c, rest, hcs, -, -, -, hclose, -, hblank⟩ := exists_start_of_mem_names hmem
    exact ⟨c, rest, hcs, hblank, hclose⟩
  | int hn _ => exact number hn
  | real hn _ _ => exact number hn
  | text _ | noItems _ | items _ | noMembers _ | members _ => exact ⟨_, _, rfl, rfl, by decide⟩

/-- Blanks in front of a value are skipped, and no more. -/
theorem IsValue.skipBlanks_eq {cs before : List Char} {v : Raw} (h : IsValue cs v) (hbefore : AreBlank before)
    (rest : List Char) : skipBlanks (before ++ (cs ++ rest)) = cs ++ rest := by
  obtain ⟨c, ds, rfl, hc, -⟩ := h.exists_start
  rw [skipBlanks_append hbefore]
  exact skipBlanks_cons hc _

theorem AreItems.head?_ne {cs : List Char} {vs : List Raw} (h : AreItems cs vs) (rest : List Char) :
    (skipBlanks (cs ++ rest)).head? ≠ some ']' := by
  have start : ∀ {before ds : List Char} {v : Raw}, AreBlank before → IsValue ds v → ∀ rest,
      (skipBlanks (before ++ (ds ++ rest))).head? ≠ some ']' := by
    intro before ds v hbefore hv rest
    rw [hv.skipBlanks_eq hbefore]
    obtain ⟨c, ds, rfl, -, hc⟩ := hv.exists_start
    exact fun h => hc (Option.some.inj h)
  cases h with
  | last hbefore hv _ =>
    rw [List.append_assoc, List.append_assoc]
    exact start hbefore hv _
  | more hbefore hv _ _ =>
    rw [List.append_assoc, List.append_assoc]
    exact start hbefore hv _

theorem AreMembers.head?_ne {cs : List Char} {ms : List (Points × Raw)} (h : AreMembers cs ms) (rest : List Char) :
    (skipBlanks (cs ++ rest)).head? ≠ some '}' := by
  have start : ∀ {before ds : List Char}, AreBlank before →
      (skipBlanks (before ++ '"' :: ds)).head? ≠ some '}' := by
    intro before ds hbefore
    rw [skipBlanks_append hbefore, skipBlanks_cons rfl]
    exact fun h => absurd (Option.some.inj h) (by decide)
  cases h with
  | last hbefore _ _ _ _ _ =>
    rw [List.append_assoc]
    exact start hbefore
  | more hbefore _ _ _ _ _ _ =>
    rw [List.append_assoc]
    exact start hbefore

theorem stopsNumber_cons {c : Char} (hc : isAsciiDigit c = false ∧ c ≠ '.' ∧ c ≠ 'e' ∧ c ≠ 'E') (cs : List Char) :
    StopsNumber (c :: cs) := by
  rintro d ⟨⟩
  exact hc

mutual

/-- **Values.**  What is written as a value is read as it, unless an integer in it is too long. -/
theorem IsValue.answers {cs : List Char} {v : Raw} : IsValue cs v → ∀ rest, StopsNumber rest →
    Answers readValue (cs ++ rest) v v.isShort rest
  | .name hmem, rest, _ => by
    rw [isShort_of_mem_names hmem]
    exact .of_gives (gives_name hmem rest)
  | .int hn hint, rest, hrest => answers_int hn hint hrest
  | .real hn hreal hx, rest, hrest => .of_gives (gives_number hn hrest (Numeral.value_real hn hreal hx))
  | @IsValue.text cs ps hstring, rest, _ => by
    obtain ⟨p, hp, hvalue, hrest⟩ := hstring.gives_pair rest
    refine .of_gives ?_
    unfold Gives
    have htext : '"' :: (cs ++ ['"']) ++ rest = '"' :: (cs ++ '"' :: rest) := by simp
    rw [htext, readValue, hp]
    exact ⟨_, rfl, congrArg Raw.text hvalue, hrest⟩
  | @IsValue.noItems blanks hblanks, rest, _ => by
    have htext : '[' :: (blanks ++ [']']) ++ rest = '[' :: (blanks ++ ']' :: rest) := by simp
    rw [htext]
    exact .of_gives (gives_noItems hblanks rest)
  | @IsValue.items cs vs hitems, rest, _ => by
    have htext : '[' :: (cs ++ [']']) ++ rest = '[' :: (cs ++ ']' :: rest) := by simp
    rw [htext]
    exact answers_array (hitems.head?_ne _) (hitems.answers rest)
  | @IsValue.noMembers blanks hblanks, rest, _ => by
    have htext : '{' :: (blanks ++ ['}']) ++ rest = '{' :: (blanks ++ '}' :: rest) := by simp
    rw [htext]
    exact .of_gives (gives_noMembers hblanks rest)
  | @IsValue.members cs ms hmembers, rest, _ => by
    have htext : '{' :: (cs ++ ['}']) ++ rest = '{' :: (cs ++ '}' :: rest) := by simp
    rw [htext]
    exact answers_object (hmembers.head?_ne _) (hmembers.answers rest)

theorem AreItems.answers {cs : List Char} {vs : List Raw} : AreItems cs vs → ∀ rest,
    Answers readItems (skipBlanks (cs ++ ']' :: rest)) vs (Raw.areShort vs) rest
  | .last hbefore hvalue hafter, rest => by
    rw [List.append_assoc, List.append_assoc, hvalue.skipBlanks_eq hbefore, Raw.areShort, Raw.areShort, Bool.and_true]
    exact answers_items_last (hvalue.answers _ (stopsNumber_blanks hafter (stopsNumber_cons (by decide) _))) hafter
  | .more hbefore hvalue hafter hitems, rest => by
    rw [List.append_assoc, List.append_assoc, hvalue.skipBlanks_eq hbefore, List.append_assoc, List.cons_append,
      Raw.areShort]
    exact answers_items_more (hvalue.answers _ (stopsNumber_blanks hafter (stopsNumber_cons (by decide) _))) hafter
      (hitems.answers rest)

theorem AreMembers.answers {cs : List Char} {ms : List (Points × Raw)} : AreMembers cs ms → ∀ rest,
    Answers readMembers (skipBlanks (cs ++ '}' :: rest)) ms (Raw.membersAreShort ms) rest
  | @AreMembers.last before key colon value cs after ps v hbefore hkey hcolon hblanks hvalue hafter, rest => by
    have hstop : StopsNumber (after ++ '}' :: rest) := stopsNumber_blanks hafter (stopsNumber_cons (by decide) rest)
    have hread := hvalue.answers _ hstop
    rw [← hvalue.skipBlanks_eq (List.forall_mem_nil _)] at hread
    have htext : before ++ '"' :: (key ++ '"' :: (colon ++ ':' :: (value ++ (cs ++ after)))) ++ '}' :: rest =
        before ++ '"' :: (key ++ '"' :: (colon ++ ':' :: (value ++ (cs ++ (after ++ '}' :: rest))))) := by simp
    rw [htext, skipBlanks_append hbefore, skipBlanks_cons rfl, Raw.membersAreShort, Raw.membersAreShort, Bool.and_true]
    exact answers_members_last hkey hcolon hblanks hread hafter
  | @AreMembers.more before key colon value cs after others ps v ms hbefore hkey hcolon hblanks hvalue hafter hmembers,
      rest => by
    have hstop : StopsNumber (after ++ ',' :: (others ++ '}' :: rest)) :=
      stopsNumber_blanks hafter (stopsNumber_cons (by decide) _)
    have hread := hvalue.answers _ hstop
    rw [← hvalue.skipBlanks_eq (List.forall_mem_nil _)] at hread
    have htext : before ++ '"' :: (key ++ '"' :: (colon ++ ':' :: (value ++ (cs ++ (after ++ ',' :: others))))) ++
        '}' :: rest = before ++ '"' :: (key ++ '"' :: (colon ++ ':' :: (value ++
          (cs ++ (after ++ ',' :: (others ++ '}' :: rest)))))) := by simp
    rw [htext, skipBlanks_append hbefore, skipBlanks_cons rfl, Raw.membersAreShort]
    exact answers_members_more hkey hcolon hblanks hread hafter (hmembers.answers rest)

end

/-! ## Whole texts -/

section
variable {s : String} {v : Raw} (h : Denotes s v)
include h

theorem Denotes.exists_answers : ∃ rest, skipBlanks rest = [] ∧
    Answers readValue (skipBlanks s.toList) v v.isShort rest := by
  obtain ⟨before, cs, after, hs, hbefore, hvalue, hafter⟩ := h
  have hstop := stopsNumber_blanks hafter stopsNumber_nil
  rw [List.append_nil] at hstop
  refine ⟨after, skipBlanks_eq_nil hafter, ?_⟩
  rw [hs, hvalue.skipBlanks_eq hbefore]
  exact hvalue.answers after hstop

/-- **Completeness.**  What a text is written as is what it is read as, if all integers in it are short. -/
theorem Denotes.ofText_eq (hshort : v.isShort) : Raw.ofText s = .ok v := by
  obtain ⟨rest, hrest, hread⟩ := h.exists_answers
  obtain ⟨p, hp, rfl, rfl⟩ := hread.gives hshort
  unfold Raw.ofText
  rw [hp]
  simp [hrest]

/-- If an integer in it is too long, a text fails for that alone. -/
theorem Denotes.tooManyDigits (hlong : v.isShort = false) : ∃ count, Raw.ofText s = .error (.tooManyDigits count) := by
  obtain ⟨rest, -, hread⟩ := h.exists_answers
  obtain ⟨count, he⟩ := hread.fails hlong
  refine ⟨count, ?_⟩
  unfold Raw.ofText
  rw [he]

end

/-- **Reading.**  A text is read exactly as what it is written as, with short integers. -/
theorem ofText_eq_ok_iff {s : String} {v : Raw} : Raw.ofText s = .ok v ↔ Denotes s v ∧ v.isShort :=
  ⟨denotes_of_ofText, fun h => h.1.ofText_eq h.2⟩

end PlanarMath.Json
