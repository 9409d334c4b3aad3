import PlanarMath.Expr.Record
import PlanarMath.Proofs.Expr.WellFormed
import PlanarMath.Proofs.Schema.Checks

/-!
# Expressions as records, and back

What is read from a record keeps all rules of expressions, and the record of an expression that keeps them
is read as that expression: with the ranges that it has and without those that it has not, and with each
number as the integer or the real number that it is.
-/

namespace PlanarMath

open Schema

namespace Range

theorem ofEnds_eq_ok_iff {ends : Nat × Nat} {r : Range} : ofEnds ends = .ok r ↔ ends = (r.start, r.stop) := by
  obtain ⟨start, stop⟩ := ends
  unfold ofEnds
  split
  · next h =>
    obtain ⟨a, b, hab⟩ := r
    simp
  · next h =>
    simp only [fault_ne_ok, Prod.mk.injEq, false_iff, not_and]
    rintro rfl rfl
    exact h r.start_le_stop

/-- A record is read as a range when it has the two ends of the range. -/
theorem ofJson_eq_ok_iff {v : Json} {r : Range} :
    ofJson v = .ok r ↔ ∃ ms start stop, v = .object ms ∧ Json.member? "start" ms = some start ∧
      Json.member? "end" ms = some stop ∧ integer start = .ok (r.start : Int) ∧
      integer stop = .ok (r.stop : Int) := by
  cases v with
  | object ms =>
    rw [ofJson, bind_eq_ok_iff]
    simp only [both_eq_ok_iff, ofEnds_eq_ok_iff, field_eq_ok_iff, natural_eq_ok_iff]
    constructor
    · rintro ⟨ends, ⟨⟨start, hs, hstart⟩, stop, he, hstop⟩, rfl⟩
      exact ⟨ms, start, stop, rfl, hs, he, hstart, hstop⟩
    · rintro ⟨ms', start, stop, hms, hs, he, hstart, hstop⟩
      obtain rfl := Json.object.inj hms
      exact ⟨_, ⟨⟨start, hs, hstart⟩, stop, he, hstop⟩, rfl⟩
  | _ => simp [ofJson]

theorem ofJson_toJson (r : Range) : ofJson r.toJson = .ok r :=
  ofJson_eq_ok_iff.2 ⟨_, _, _, rfl, rfl, rfl, rfl, rfl⟩

end Range

namespace Expr

/-- All nodes keep the rules of their records. -/
def Valid (e : Expr) : Prop := ∀ n ∈ e.walk, n.keepsRules

instance (e : Expr) : Decidable e.Valid := inferInstanceAs (Decidable (∀ n ∈ e.walk, n.keepsRules))

theorem WellFormed.valid {e : Expr} (h : e.WellFormed) : e.Valid := fun n hn => (h n hn).1

/-! ## Node by node -/

section
variable {args : List Expr} {r s : Option Range}

theorem valid_number (v : Number) : (number v r).Valid := List.forall_mem_singleton.2 rfl

theorem valid_symbol {name : String} : (symbol name r).Valid ↔ name ≠ "" := by
  simp [Valid, walk_symbol, keepsRules]

theorem valid_error : (error r).Valid := List.forall_mem_singleton.2 rfl

theorem valid_unary {op : UnaryOp} {arg : Expr} : (unary op arg r s).Valid ↔ arg.Valid := by
  unfold Valid
  rw [forall_walk_unary]
  simp [keepsRules]

theorem valid_binary {op : BinaryOp} :
    (binary op args r s).Valid ↔ op.allows args.length ∧ ∀ e ∈ args, e.Valid := by
  unfold Valid
  rw [forall_walk_binary, keepsRules_binary]

theorem valid_tuple : (tuple args r).Valid ↔ args ≠ [] ∧ ∀ e ∈ args, e.Valid := by
  unfold Valid
  rw [forall_walk_tuple]
  simp [keepsRules]

theorem valid_call {target : Expr} :
    (call target args s r).Valid ↔ target.Valid ∧ args ≠ [] ∧ ∀ e ∈ args, e.Valid := by
  unfold Valid
  rw [forall_walk_call, forall_walk_tuple]
  have hrules : (call target args s r).keepsRules = (tuple args s).keepsRules := rfl
  constructor
  · rintro ⟨-, ht, htuple, hargs⟩
    exact ⟨ht, by simpa [keepsRules] using htuple, hargs⟩
  · rintro ⟨ht, hne, hargs⟩
    have htuple : (tuple args s).keepsRules := by simpa [keepsRules] using hne
    exact ⟨hrules.trans htuple, ht, htuple, hargs⟩

end

/-! ## Reading gives valid expressions -/

theorem atLeast_eq_ok_iff {α : Type} {count : Nat} {xs : Checked (List α)} {ys : List α} :
    atLeast count xs = .ok ys ↔ xs = .ok ys ∧ count ≤ ys.length := by
  unfold atLeast
  rw [bind_eq_ok_iff]
  constructor
  · rintro ⟨zs, hzs, h⟩
    split at h
    · cases h
    · next hlen =>
      obtain rfl := Except.ok.inj h
      exact ⟨hzs, Nat.le_of_not_lt hlen⟩
  · rintro ⟨hys, hlen⟩
    exact ⟨ys, hys, if_neg (Nat.not_lt.2 hlen)⟩

section
variable {ms : List (String × Json)} {e : Expr}

theorem valid_of_numberOf (h : numberOf ms = .ok e) : e.Valid := by
  obtain ⟨p, -, rfl⟩ := map_eq_ok_iff.1 h
  exact valid_number p.1

theorem valid_of_symbolOf (h : symbolOf ms = .ok e) : e.Valid := by
  obtain ⟨p, hp, rfl⟩ := map_eq_ok_iff.1 h
  obtain ⟨v, -, hv⟩ := field_eq_ok_iff.1 (both_eq_ok_iff.1 hp).1
  exact valid_symbol.2 (fullText_eq_ok_iff.1 hv).2

theorem valid_of_unaryOf {arg : Checked Expr} (harg : ∀ a, arg = .ok a → a.Valid)
    (h : unaryOf ms arg = .ok e) : e.Valid := by
  obtain ⟨p, hp, rfl⟩ := map_eq_ok_iff.1 h
  obtain ⟨-, hrest⟩ := both_eq_ok_iff.1 hp
  exact valid_unary.2 (harg _ (both_eq_ok_iff.1 hrest).1)

theorem valid_of_binaryOf {args : Checked (List Expr)} (hargs : ∀ es, args = .ok es → ∀ e ∈ es, e.Valid)
    (h : binaryOf ms args = .ok e) : e.Valid := by
  obtain ⟨⟨op, es, r, s⟩, hp, h⟩ := bind_eq_ok_iff.1 h
  obtain ⟨-, hrest⟩ := both_eq_ok_iff.1 hp
  have hes := hargs es (both_eq_ok_iff.1 hrest).1
  simp only at h
  split at h
  · next hallows =>
    obtain rfl := Except.ok.inj h
    exact valid_binary.2 ⟨hallows, hes⟩
  · cases h

theorem valid_of_callOf {target : Checked Expr} {args : Checked (List Expr × Option Range)}
    (htarget : ∀ t, target = .ok t → t.Valid)
    (hargs : ∀ p, args = .ok p → p.1 ≠ [] ∧ ∀ e ∈ p.1, e.Valid)
    (h : callOf ms target args = .ok e) : e.Valid := by
  obtain ⟨p, hp, rfl⟩ := map_eq_ok_iff.1 h
  obtain ⟨ht, hrest⟩ := both_eq_ok_iff.1 hp
  exact valid_call.2 ⟨htarget _ ht, hargs _ (both_eq_ok_iff.1 hrest).1⟩

end

theorem ne_nil_of_atLeast {xs : Checked (List Expr)} {ys : List Expr} (h : atLeast 1 xs = .ok ys) :
    xs = .ok ys ∧ ys ≠ [] := by
  obtain ⟨h, hlen⟩ := atLeast_eq_ok_iff.1 h
  exact ⟨h, List.ne_nil_of_length_pos hlen⟩

mutual

/-- What is read as an expression keeps all rules. -/
theorem valid_of_ofJson : ∀ {v : Json} {e : Expr}, ofJson v = .ok e → e.Valid
  | .object ms, e, h => by
    rw [ofJson] at h
    split at h
    · cases h
    · exact valid_of_numberOf (inside_eq_ok_iff.1 h)
    · exact valid_of_symbolOf (inside_eq_ok_iff.1 h)
    · exact valid_of_unaryOf (fun a ha => valid_of_nodeAt ms (inside_eq_ok_iff.1 ha)) (inside_eq_ok_iff.1 h)
    · refine valid_of_binaryOf (fun es hes => ?_) (inside_eq_ok_iff.1 h)
      exact valid_of_nodesAt ms (atLeast_eq_ok_iff.1 (inside_eq_ok_iff.1 hes)).1
    · obtain ⟨p, hp, rfl⟩ := map_eq_ok_iff.1 (inside_eq_ok_iff.1 h)
      obtain ⟨hitems, hne⟩ := ne_nil_of_atLeast (inside_eq_ok_iff.1 (both_eq_ok_iff.1 hp).1)
      exact valid_tuple.2 ⟨hne, valid_of_nodesAt ms hitems⟩
    · exact valid_of_callOf (fun t ht => valid_of_nodeAt ms (inside_eq_ok_iff.1 ht))
        (fun p hp => valid_of_groupAt ms (inside_eq_ok_iff.1 hp)) (inside_eq_ok_iff.1 h)
    · obtain ⟨r, -, rfl⟩ := map_eq_ok_iff.1 (inside_eq_ok_iff.1 h)
      exact valid_error
    · cases h
  | .null, _, h | .bool _, _, h | .int _, _, h | .real _, _, h | .text _, _, h | .array _, _, h => by
    rw [ofJson] at h
    · cases h
    · nofun

theorem valid_of_nodeAt {key : String} : ∀ (ms : List (String × Json)) {e : Expr},
    nodeAt key ms = .ok e → e.Valid
  | [], e, h => by
    rw [nodeAt] at h
    cases h
  | (k, v) :: ms, e, h => by
    rw [nodeAt] at h
    split at h
    · exact valid_of_ofJson h
    · exact valid_of_nodeAt ms h

theorem valid_of_nodesAt {key : String} : ∀ (ms : List (String × Json)) {es : List Expr},
    nodesAt key ms = .ok es → ∀ e ∈ es, e.Valid
  | [], es, h => by
    rw [nodesAt] at h
    cases h
  | (k, v) :: ms, es, h => by
    rw [nodesAt] at h
    split at h
    · exact valid_of_nodesOf h
    · exact valid_of_nodesAt ms h

theorem valid_of_nodesOf : ∀ {v : Json} {es : List Expr}, nodesOf v = .ok es → ∀ e ∈ es, e.Valid
  | .array items, es, h => by
    rw [nodesOf] at h
    exact valid_of_itemsOf items h
  | .null, _, h | .bool _, _, h | .int _, _, h | .real _, _, h | .text _, _, h | .object _, _, h => by
    rw [nodesOf] at h
    · cases h
    · nofun

theorem valid_of_itemsOf : ∀ (vs : List Json) {i : Nat} {es : List Expr},
    itemsOf i vs = .ok es → ∀ e ∈ es, e.Valid
  | [], i, es, h => by
    rw [itemsOf] at h
    obtain rfl := Except.ok.inj h
    exact List.forall_mem_nil _
  | v :: vs, i, es, h => by
    rw [itemsOf] at h
    obtain ⟨p, hp, rfl⟩ := map_eq_ok_iff.1 h
    obtain ⟨hv, hvs⟩ := both_eq_ok_iff.1 hp
    exact List.forall_mem_cons.2 ⟨valid_of_ofJson (inside_eq_ok_iff.1 hv), valid_of_itemsOf vs hvs⟩

theorem valid_of_groupAt {key : String} : ∀ (ms : List (String × Json)) {p : List Expr × Option Range},
    groupAt key ms = .ok p → p.1 ≠ [] ∧ ∀ e ∈ p.1, e.Valid
  | [], p, h => by
    rw [groupAt] at h
    cases h
  | (k, v) :: ms, p, h => by
    rw [groupAt] at h
    split at h
    · exact valid_of_groupOf h
    · exact valid_of_groupAt ms h

theorem valid_of_groupOf : ∀ {v : Json} {p : List Expr × Option Range},
    groupOf v = .ok p → p.1 ≠ [] ∧ ∀ e ∈ p.1, e.Valid
  | .object ms, p, h => by
    rw [groupOf] at h
    obtain ⟨q, hq, rfl⟩ := map_eq_ok_iff.1 h
    obtain ⟨-, hrest⟩ := both_eq_ok_iff.1 hq
    obtain ⟨hitems, hne⟩ := ne_nil_of_atLeast (inside_eq_ok_iff.1 (both_eq_ok_iff.1 hrest).1)
    exact ⟨hne, valid_of_nodesAt ms hitems⟩
  | .null, _, h | .bool _, _, h | .int _, _, h | .real _, _, h | .text _, _, h | .array _, _, h => by
    rw [groupOf] at h
    · cases h
    · nofun

end

/-! ## Records of valid expressions -/

section
variable {ms : List (String × Json)} {r s : Option Range}

theorem member?_rangeMember (key : String) (r : Option Range) :
    Json.member? key (rangeMember key r) = r.map Range.toJson := by
  cases r <;> simp [rangeMember, Json.member?]

theorem member?_range (r s : Option Range) : Json.member? "range" (rangeMembers r s) = r.map Range.toJson := by
  cases r <;> cases s <;> rfl

theorem member?_sign (r s : Option Range) :
    Json.member? "internal_range" (rangeMembers r s) = s.map Range.toJson := by
  cases r <;> cases s <;> rfl

/-- A range is read when it is there, and else there is none. -/
theorem optionalField_range {key : String} (h : Json.member? key ms = r.map Range.toJson) :
    optionalField key Range.ofJson ms = .ok r := by
  cases r with
  | none => exact optionalField_of_missing h
  | some r => exact optionalField_eq_ok_some_iff.2 ⟨_, h, nofun, Range.ofJson_toJson r⟩

end

section
variable {key : String} {v : Json} {ms : List (String × Json)}

theorem nodeAt_eq (h : Json.member? key ms = some v) : nodeAt key ms = ofJson v := by
  induction ms with
  | nil => cases h
  | cons m ms ih => grind [Json.member?, nodeAt]

theorem nodesAt_eq (h : Json.member? key ms = some v) : nodesAt key ms = nodesOf v := by
  induction ms with
  | nil => cases h
  | cons m ms ih => grind [Json.member?, nodesAt]

theorem groupAt_eq (h : Json.member? key ms = some v) : groupAt key ms = groupOf v := by
  induction ms with
  | nil => cases h
  | cons m ms ih => grind [Json.member?, groupAt]

end

section
variable {args : List Expr} {r s : Option Range}

theorem ofJson_number (v : Number) (r : Option Range) : ofJson (number v r).toJson = .ok (number v r) := by
  obtain ⟨ms, hrecord, htag, hvalue, hr⟩ : ∃ ms, (number v r).toJson = .object ms ∧
      Json.member? "node" ms = some (.text "Number") ∧ Json.member? "value" ms = some (.ofNumber v) ∧
      Json.member? "range" ms = r.map Range.toJson :=
    ⟨_, rfl, rfl, rfl, member?_rangeMember "range" r⟩
  have hread : numberOf ms = .ok (number v r) := by
    refine map_eq_ok_iff.2 ⟨(v, r), both_eq_ok_iff.2 ⟨?_, optionalField_range hr⟩, rfl⟩
    exact field_eq_ok_iff.2 ⟨_, hvalue, number_ofNumber v⟩
  simp [hrecord, ofJson, htag, hread]

theorem ofJson_symbol {name : String} (h : name ≠ "") : ofJson (symbol name r).toJson = .ok (symbol name r) := by
  obtain ⟨ms, hrecord, htag, hname, hr⟩ : ∃ ms, (symbol name r).toJson = .object ms ∧
      Json.member? "node" ms = some (.text "Symbol") ∧ Json.member? "name" ms = some (.text name) ∧
      Json.member? "range" ms = r.map Range.toJson :=
    ⟨_, rfl, rfl, rfl, member?_rangeMember "range" r⟩
  have hread : symbolOf ms = .ok (symbol name r) := by
    refine map_eq_ok_iff.2 ⟨(name, r), both_eq_ok_iff.2 ⟨?_, optionalField_range hr⟩, rfl⟩
    exact field_eq_ok_iff.2 ⟨_, hname, fullText_eq_ok_iff.2 ⟨rfl, h⟩⟩
  simp [hrecord, ofJson, htag, hread]

theorem ofJson_error (r : Option Range) : ofJson (error r).toJson = .ok (error r) := by
  obtain ⟨ms, hrecord, htag, hr⟩ : ∃ ms, (error r).toJson = .object ms ∧
      Json.member? "node" ms = some (.text "Error") ∧ Json.member? "range" ms = r.map Range.toJson :=
    ⟨_, rfl, rfl, member?_rangeMember "range" r⟩
  have hread : rangeOf ms = .ok r := optionalField_range hr
  simp [hrecord, ofJson, htag, hread]

theorem ofJson_unary {op : UnaryOp} {arg : Expr} (harg : ofJson arg.toJson = .ok arg) :
    ofJson (unary op arg r s).toJson = .ok (unary op arg r s) := by
  obtain ⟨ms, hrecord, htag, hop, hnode, hr, hs⟩ : ∃ ms, (unary op arg r s).toJson = .object ms ∧
      Json.member? "node" ms = some (.text "Unary") ∧ Json.member? "op" ms = some (.text op.text) ∧
      Json.member? "arg" ms = some arg.toJson ∧ Json.member? "range" ms = r.map Range.toJson ∧
      Json.member? "internal_range" ms = s.map Range.toJson :=
    ⟨_, rfl, rfl, rfl, rfl, member?_range r s, member?_sign r s⟩
  have hread : unaryOf ms (.ok arg) = .ok (unary op arg r s) := by
    refine map_eq_ok_iff.2 ⟨(op, arg, r, s), both_eq_ok_iff.2 ⟨?_, ?_⟩, rfl⟩
    · exact field_eq_ok_iff.2 ⟨_, hop, oneOf_text op.ofText?_text⟩
    · exact both_eq_ok_iff.2 ⟨rfl, both_eq_ok_iff.2 ⟨optionalField_range hr, optionalField_range hs⟩⟩
  simp [hrecord, ofJson, htag, nodeAt_eq hnode, harg, inside, hread]

theorem ofJson_binary {op : BinaryOp} (hop : op.allows args.length)
    (hargs : itemsOf 0 (toJsonAll args) = .ok args) :
    ofJson (binary op args r s).toJson = .ok (binary op args r s) := by
  obtain ⟨ms, hrecord, htag, hname, hnodes, hr, hs⟩ : ∃ ms, (binary op args r s).toJson = .object ms ∧
      Json.member? "node" ms = some (.text "Binary") ∧ Json.member? "op" ms = some (.text op.text) ∧
      Json.member? "args" ms = some (.array (toJsonAll args)) ∧
      Json.member? "range" ms = r.map Range.toJson ∧
      Json.member? "internal_range" ms = s.map Range.toJson :=
    ⟨_, rfl, rfl, rfl, rfl, member?_range r s, member?_sign r s⟩
  have hread : binaryOf ms (.ok args) = .ok (binary op args r s) := by
    refine bind_eq_ok_iff.2 ⟨(op, args, r, s), both_eq_ok_iff.2 ⟨?_, ?_⟩, if_pos hop⟩
    · exact field_eq_ok_iff.2 ⟨_, hname, oneOf_text op.ofText?_text⟩
    · exact both_eq_ok_iff.2 ⟨rfl, both_eq_ok_iff.2 ⟨optionalField_range hr, optionalField_range hs⟩⟩
  have htwo : atLeast 2 (nodesAt "args" ms) = .ok args := by
    rw [atLeast_eq_ok_iff, nodesAt_eq hnodes, nodesOf]
    simp only [BinaryOp.allows, Bool.and_eq_true, decide_eq_true_eq] at hop
    exact ⟨hargs, hop.1⟩
  simp [hrecord, ofJson, htag, htwo, inside, hread]

/-- The members of a tuple, whose kind need not be told by a tag. -/
theorem tuple_members (r : Option Range) (hne : args ≠ []) (hargs : itemsOf 0 (toJsonAll args) = .ok args) :
    ∃ ms, (tuple args r).toJson = .object ms ∧ Json.member? "node" ms = some (.text "Tuple") ∧
      atLeast 1 (nodesAt "items" ms) = .ok args ∧ rangeOf ms = .ok r := by
  obtain ⟨ms, hrecord, htag, hnodes, hr⟩ : ∃ ms, (tuple args r).toJson = .object ms ∧
      Json.member? "node" ms = some (.text "Tuple") ∧
      Json.member? "items" ms = some (.array (toJsonAll args)) ∧
      Json.member? "range" ms = r.map Range.toJson :=
    ⟨_, rfl, rfl, rfl, member?_rangeMember "range" r⟩
  refine ⟨ms, hrecord, htag, ?_, optionalField_range hr⟩
  rw [atLeast_eq_ok_iff, nodesAt_eq hnodes, nodesOf]
  exact ⟨hargs, List.length_pos_iff.2 hne⟩

theorem ofJson_tuple (hne : args ≠ []) (hargs : itemsOf 0 (toJsonAll args) = .ok args) :
    ofJson (tuple args r).toJson = .ok (tuple args r) := by
  obtain ⟨ms, hrecord, htag, hitems, hr⟩ := tuple_members r hne hargs
  simp [hrecord, ofJson, htag, hitems, hr]

theorem groupOf_tuple (hne : args ≠ []) (hargs : itemsOf 0 (toJsonAll args) = .ok args) :
    groupOf (tuple args r).toJson = .ok (args, r) := by
  obtain ⟨ms, hrecord, htag, hitems, hr⟩ := tuple_members r hne hargs
  simp [hrecord, groupOf, knownTag, htag, hitems, hr]

theorem ofJson_call {target : Expr} (htarget : ofJson target.toJson = .ok target)
    (hargs : groupOf (tuple args s).toJson = .ok (args, s)) :
    ofJson (call target args s r).toJson = .ok (call target args s r) := by
  obtain ⟨ms, hrecord, htag, hnode, hgroup, hr⟩ : ∃ ms, (call target args s r).toJson = .object ms ∧
      Json.member? "node" ms = some (.text "Call") ∧ Json.member? "target" ms = some target.toJson ∧
      Json.member? "args" ms = some (tuple args s).toJson ∧ Json.member? "range" ms = r.map Range.toJson :=
    ⟨_, rfl, rfl, rfl, rfl, member?_rangeMember "range" r⟩
  have hread : callOf ms (.ok target) (.ok (args, s)) = .ok (call target args s r) := by
    refine map_eq_ok_iff.2 ⟨(target, (args, s), r), ?_, rfl⟩
    exact both_eq_ok_iff.2 ⟨rfl, both_eq_ok_iff.2 ⟨rfl, optionalField_range hr⟩⟩
  simp [hrecord, ofJson, htag, nodeAt_eq hnode, htarget, groupAt_eq hgroup, hargs, inside, hread]

end

mutual

/-- The record of a valid expression is read as the expression. -/
theorem ofJson_toJson : ∀ {e : Expr}, e.Valid → ofJson e.toJson = .ok e
  | number v r, _ => ofJson_number v r
  | symbol name r, h => ofJson_symbol (valid_symbol.1 h)
  | error r, _ => ofJson_error r
  | unary op arg r s, h => ofJson_unary (ofJson_toJson (valid_unary.1 h))
  | binary op args r s, h => by
    obtain ⟨hop, hargs⟩ := valid_binary.1 h
    exact ofJson_binary hop (itemsOf_toJsonAll 0 args hargs)
  | tuple items r, h => by
    obtain ⟨hne, hitems⟩ := valid_tuple.1 h
    exact ofJson_tuple hne (itemsOf_toJsonAll 0 items hitems)
  | call target args s r, h => by
    obtain ⟨ht, hne, hargs⟩ := valid_call.1 h
    exact ofJson_call (ofJson_toJson ht) (groupOf_tuple hne (itemsOf_toJsonAll 0 args hargs))

theorem itemsOf_toJsonAll (i : Nat) : ∀ (es : List Expr), (∀ e ∈ es, e.Valid) →
    itemsOf i (toJsonAll es) = .ok es
  | [], _ => by rw [toJsonAll, itemsOf]
  | e :: es, h => by
    obtain ⟨he, hes⟩ := List.forall_mem_cons.1 h
    have hfirst := ofJson_toJson he
    have hrest := itemsOf_toJsonAll (i + 1) es hes
    simp [toJsonAll, itemsOf, hfirst, hrest]

end

/-- Valid expressions are those that are read from their records. -/
theorem valid_iff_ofJson {e : Expr} : e.Valid ↔ ofJson e.toJson = .ok e := ⟨ofJson_toJson, valid_of_ofJson⟩

/-- Valid expressions are those that are read from any record. -/
theorem valid_iff_exists_record {e : Expr} : e.Valid ↔ ∃ v, ofJson v = .ok e :=
  ⟨fun h => ⟨_, ofJson_toJson h⟩, fun ⟨_, h⟩ => valid_of_ofJson h⟩

end Expr

end PlanarMath
